-- SUMMARY: co_await async(p) for a shared and for a unique process p, and the runs that follow when p is awaited once.
import Cxxdes.Async.Agree
import Cxxdes.Run.Replay

/-!
# Starting a process with async

`co_await async(p)` binds the process, gives it the null token and hands the handle back. From
then on a run with a `coroutine<T>` and a run with a `unique_coroutine<T>` agree, unless the
process fails: the exception of a shared process goes to the waiter and to the null token, which
`step()` rethrows. The clock of the shared run is behind no token of the unique one, and it is not
ahead at the end, as long as the null token is not later than the waiter's.
-/

namespace Cxxdes

variable {P : Program} {s s' t : State P} {c d : CoroId} {f : P.Frame} {x : Awaitable P.User}
  {k : Result P.Value P.Error → P.Frame}

/-- The environment in which process `c` is a `unique_coroutine<T>`. -/
def State.asUnique (c : CoroId) (s : State P) : State P :=
  s.setCoro c { s.coros c with unique := true }

/-- A call of a coroutine function that returns a `unique_coroutine<T>`. A handle names the same
process. -/
def Awaitable.asUnique {U : Type} : Awaitable U → Awaitable U
  | .call f o => .call f { o with unique := true }
  | a => a

/-- The awaitable is a coroutine. -/
def Awaitable.IsCoroutine {U : Type} : Awaitable U → Prop
  | .coroutine _ _ => True
  | .ref _ => True
  | .call _ _ => True
  | _ => False

/-- The body of `d`, in state `f`, starts the process `c`, a `coroutine<T>`, with
`co_await async(x)`. -/
structure Asyncs (s : State P) (d : CoroId) (f : P.Frame) (x : Awaitable P.User)
    (k : Result P.Value P.Error → P.Frame) (c : CoroId) : Prop where
  running : (s.coros d).status = .running f
  next : s.next f = .await (.async x) k
  coroutine : x.IsCoroutine
  coro : (toHandle (s.ran f) x).1.coro = c
  unbound : ((toHandle (s.ran f) x).2.coros c).env = .unbound
  shared : ((toHandle (s.ran f) x).2.coros c).unique = false

/-! ### co_await async -/

/-- What `co_await async(x)` does with a process that is not bound. -/
theorem coAwait_async (s : State P) (d : CoroId) (x : Awaitable P.User)
    (k : Result P.Value P.Error → P.Frame) {p : Handle} {sh : State P}
    (hh : toHandle s x = (p, sh)) (hun : (sh.coros p.coro).env = .unbound)
    (hinc : (sh.coros p.coro).complete = false) :
    s.coAwait d (.async x) k =
      ((sh.startCoro p.coro (s.coros d).priority).newCompletion p none).deliver d none k
        (.ok (.handle p)) := by
  have hcomp : ((sh.startCoro p.coro (s.coros d).priority).coros p.coro).complete = false := by
    simpa [State.startCoro, State.log, State.scheduleToken, State.newToken, State.setCoro,
      CoroData.started, CoroData.complete] using hinc
  unfold State.coAwait
  simp only [Awaitable.wrap, Awaitable.copy, awaitBind, hh, State.detach, State.bind_, hun, hcomp,
    awaitReady, awaitResume, awaitResumeTag, Awaitable.target, Bool.false_eq_true, if_false]

/-- A handle, or a new process, with the other kind of coroutine. -/
theorem toHandle_asUnique (hx : x.IsCoroutine) {p : Handle} {sh : State P}
    (hh : toHandle s x = (p, sh)) :
    toHandle (s.asUnique p.coro) x.asUnique = (p, sh.asUnique p.coro) := by
  cases x with
  | coroutine q tkn =>
      cases hh
      rfl
  | ref o =>
      cases hh
      rfl
  | call g o =>
      cases hh
      unfold Awaitable.asUnique toHandle State.asUnique State.newCoro State.setCoro
      simp [CoroData.called]
  | timeout | wait | wake | sequential | async | comp => exact hx.elim

/-- Making a process unique, as a map. -/
theorem retype_asUnique (s : State P) (c : CoroId)
    (hts : (s.coros c).completionTokens.getLast?.toList = (s.coros c).completionTokens) :
    s.retype { coro := c } = s.asUnique c := by
  have hfilter : ∀ l : List TokenId, l.filter (Retype.keeps { coro := c }) = l := fun l =>
    List.filter_eq_self.mpr fun u _ => Retype.keeps_of_ne (by simp)
  have htok : (fun u => (s.tokens u).retype { coro := c } u) = s.tokens :=
    funext fun u => Token.retype_of_ne _ (by simp)
  have hco : (fun q => (s.coros q).retype { coro := c } q) =
      Function.update s.coros c { s.coros c with unique := true } := by
    funext q
    by_cases hq : q = c
    · subst hq
      simp [CoroData.retype, hts]
    · rw [Function.update_of_ne hq]
      exact if_neg hq
  unfold State.retype State.asUnique State.setCoro
  simp only [hfilter, htok, hco]
  simp

/-- The environment in which a bound process has its null token. -/
def State.detached (s : State P) (p : Handle) (priority : Int) : State P :=
  (s.startCoro p.coro priority).newCompletion p none

section
variable (s : State P) (p : Handle) (priority : Int)

theorem detached_token :
    (s.detached p priority).tokens (s.nextToken + 1) =
      ⟨p.retLatency, (s.startCoro p.coro priority).returnPriority p, none, none, none⟩ := by
  simp [State.detached, State.newCompletion, State.startCoro, State.log, State.newToken,
    State.setCoro, State.scheduleToken]

theorem detached_coro (hu : (s.coros p.coro).unique = false)
    (hts : (s.coros p.coro).completionTokens = []) :
    ((s.detached p priority).coros p.coro).unique = false ∧
      ((s.detached p priority).coros p.coro).completionTokens = [s.nextToken + 1] := by
  simp [State.detached, State.newCompletion, State.startCoro, State.log, State.newToken,
    State.setCoro, State.scheduleToken, CoroData.started, CoroData.completionToken, hu, hts]

theorem detached_scheduled : (s.detached p priority).scheduled = s.scheduled ++ [s.nextToken] := rfl

end

/-- The environments after `co_await async(x)`. -/
theorem Asyncs.agree (h : Asyncs s d f x k c) (hs : Sound s) (hsch : s.Scheduled) :
    ((s.asUnique c).ran f).coAwait d (.async x.asUnique) k =
        ((s.ran f).coAwait d (.async x) k).asUnique c ∧
      Agree c (s.nextToken + 1) ((s.ran f).coAwait d (.async x) k)
        (((s.ran f).coAwait d (.async x) k).asUnique c) := by
  have hs0 : Sound (s.ran f) := hs.quiet (.of_coros rfl) rfl rfl rfl hs.started.current
  have hun := h.unbound
  have hshared := h.shared
  obtain rfl := h.coro
  have hedits : Edits none 0 False (s.ran f) (toHandle (s.ran f) x).2 :=
    toHandle_edits x fun hf => hf.elim
  have hsh := hs0.edits (by simp) hedits
  have hnext : (toHandle (s.ran f) x).2.nextToken = s.nextToken := by cases x <;> rfl
  have hsched : (toHandle (s.ran f) x).2.scheduled = s.scheduled := by cases x <;> rfl
  generalize hh : toHandle (s.ran f) x = r at hun hshared hsh hnext hsched ⊢
  obtain ⟨p, sh⟩ := r
  simp only at hun hshared hsh hnext hsched ⊢
  -- the process is new: it has no completion token, and it has not begun
  have hts := hsh.listed.silent p.coro (by rw [hun]; simp)
  obtain ⟨g, hst⟩ := (hsh.wired.unbound p.coro hun).2
  have hinc : (sh.coros p.coro).complete = false := complete_of_status (by simp [hst])
  have hlt : p.coro < sh.nextCoro := hsh.tidy.fresh.lt (by rw [hun]; simp)
  have hr : Retyped { coro := p.coro } sh (sh.asUnique p.coro) :=
    ⟨⟨sh.legal, by rw [retype_asUnique sh p.coro (by rw [hts]; rfl)]; rfl⟩,
      ⟨hlt, fun z hz => (by cases hz), (by decide : timeIntegral.Fits 0)⟩,
        ⟨id, fun _ => id, fun _ => rfl⟩⟩
  have hprio : ((s.asUnique p.coro).coros d).priority = (s.coros d).priority := by
    unfold State.asUnique State.setCoro
    by_cases hd : d = p.coro
    · subst hd
      simp
    · simp [Function.update_of_ne hd]
  have hshared' : (s.ran f).coAwait d (.async x) k =
      (sh.detached p (s.coros d).priority).deliver d none k (.ok (.handle p)) :=
    coAwait_async (s.ran f) d x k hh hun hinc
  have hunique : ((s.asUnique p.coro).ran f).coAwait d (.async x.asUnique) k =
      ((sh.asUnique p.coro).detached p (s.coros d).priority).deliver d none k
        (.ok (.handle p)) := by
    rw [← hprio]
    exact coAwait_async ((s.asUnique p.coro).ran f) d x.asUnique k
      (toHandle_asUnique (s := s.ran f) h.coroutine hh) ((hr.env p.coro).trans hun)
      ((hr.complete p.coro).trans hinc)
  generalize (s.coros d).priority = priority at hshared' hunique
  rw [hshared', hunique]
  have hd : Retyped { coro := p.coro } ((sh.detached p priority).deliver d none k (.ok (.handle p)))
      (((sh.asUnique p.coro).detached p priority).deliver d none k (.ok (.handle p))) :=
    ((hr.startCoro p.coro priority).newCompletion p none).deliver d none k (.ok (.handle p))
  have hq := Quiet.deliver (sh.detached p priority) d none k (.ok (.handle p))
  obtain ⟨hu, hone⟩ := detached_coro sh p priority hshared hts
  have hu' : (((sh.detached p priority).deliver d none k
      (.ok (.handle p))).coros p.coro).unique = false := by
    simp only [State.deliver, State.log, State.setStatus, State.setCoro]
    by_cases hd : p.coro = d
    · rw [← hd, Function.update_self]
      exact hu
    · rw [Function.update_of_ne hd]
      exact hu
  have hone' := (hq.completion p.coro).trans hone
  have htok := detached_token sh p priority
  rw [← hq.tokens] at htok
  have hsame := retype_asUnique _ p.coro (by rw [hone']; rfl)
  have heq : ((sh.asUnique p.coro).detached p priority).deliver d none k (.ok (.handle p)) =
      ((sh.detached p priority).deliver d none k (.ok (.handle p))).asUnique p.coro := by
    obtain ⟨legal, he⟩ := hd.eq
    have hlegal := hd.heaps.legal rfl
    refine he.trans ?_
    rw [hsame]
    have hl : legal = ((sh.detached p priority).deliver d none k (.ok (.handle p))).legal := by
      rw [← hlegal]
      exact (congrArg State.legal he).symm
    rw [hl]
    rfl
  refine ⟨heq, ?_⟩
  rw [← hnext]
  refine ⟨by rw [htok], by rw [htok], .inl ⟨{ coro := p.coro }, heq ▸ hd, rfl, rfl, ?_, ?_⟩⟩
  · exact ⟨hlt, hu', by rw [hone']; exact List.mem_singleton_self _, by rw [htok]⟩
  · rw [hq.scheduled, detached_scheduled, hsched]
    intro hz
    cases List.mem_append.mp hz with
    | inl hz => exact absurd (hsch _ hz) (by rw [hnext]; exact Nat.not_lt.mpr (Nat.le_succ _))
    | inr hz => exact absurd (List.mem_singleton.mp hz) (Nat.succ_ne_self _)

/-! ### The runs that follow -/

/-- The states of the bodies of `launcher`. -/
inductive Launcher where
  | launch
  | wait (p : Handle)
  | done
  | work (fails : Bool)
  | leave (fails : Bool)

/-- A process that starts process 1 with `async`, with a return latency of 1, and awaits it with one
of 2. Process 1 waits for 5 and returns or fails. -/
def launcher : Program where
  User := Option Bool
  Body := Launcher
  Memory := Unit
  Value := Unit
  Error := Unit
  start u := match u with
    | none => .launch
    | some fails => .work fails
  next b m _ := (m, match b with
    | .launch => .await (.async (.coroutine { coro := 1, retLatency := 1 } none)) fun
        | .ok (.handle p) => .wait p
        | _ => .done
    | .wait p => .await (.coroutine { p with retLatency := 2 } none) fun _ => .done
    | .done => .coReturn none
    | .work fails => .await (.timeout true 5 PriorityConsts.inherit none) fun _ => .leave fails
    | .leave false => .coReturn (some ())
    | .leave true => .throw (.user ()))

namespace launcher

/-- Process 0 is about to await `async(p)`. -/
def ready (fails : Bool) : State launcher :=
  (State.init ()).after (fun s l => match l with
    | .step _ => s.current.isNone
    | _ => true)
    [.call (none : Option Bool) {}, .call (some fails : Option Bool) { void := false },
      .bind (.coroutine { coro := 0 } none), .step 0]

theorem ready_reachable (fails : Bool) : Reachable Calm (ready fails) :=
  .after (fun s l hl t ht => by
    subst ht
    exact Option.isNone_iff_eq_none.mp hl) _ _

/-- Process 0 has the handle. -/
def launched (fails : Bool) : State launcher := ((ready fails).move (.exec 0)).getD (ready fails)

/-- What process 0 does with the handle. -/
def handed (r : Result Unit Unit) : launcher.Frame :=
  .user (match r with
    | .ok (.handle p) => .wait p
    | _ => .done)

theorem asyncs (fails : Bool) :
    Asyncs (ready fails) 0 (.user .launch) (.coroutine { coro := 1, retLatency := 1 } none)
      handed 1 where
  running := by cases fails <;> rfl
  next := rfl
  coroutine := trivial
  coro := rfl
  unbound := by cases fails <;> rfl
  shared := by cases fails <;> rfl

/-- The process may end: it has been awaited once. -/
def mayEnd (s : State launcher) : Bool :=
  match (s.coros 1).status with
  | .running f =>
    match s.next f with
    | .throw _ | .coReturn _ =>
      (s.coros 1).completionTokens.head? == some 3 && (s.coros 1).completionTokens.length == 2
    | _ => true
  | _ => true

/-- The steps of a run in which process 1 ends after it has been awaited once. -/
def awaited (s : State launcher) : Label launcher → Bool
  | .step _ => s.current.isNone
  | .exec _ => mayEnd s
  | _ => false

/-- Process 1 does not fail. -/
def returning (s : State launcher) : Bool :=
  match (s.coros 1).status with
  | .running f =>
    match s.next f with
    | .throw _ => false
    | _ => true
  | _ => true

/-- Its null token is not later than its other completion tokens. -/
def early (s : State launcher) : Bool :=
  decide (∀ w ∈ (s.coros 1).completionTokens, (s.tokens 3).time ≤ (s.tokens w).time)

/-- The steps of a run in which it does not fail either, and the heap is in order. -/
def smoothly (s : State launcher) (l : Label launcher) : Bool :=
  awaited s l && (returning s && (early s && decide s.Heaped))

/-- Process 1 has returned at 5, the null token has been executed at 6, and process 0 has got the
value at 7. -/
def finished : State launcher :=
  (launched false).after smoothly
    [.exec 0, .step 2, .exec 1, .step 5, .exec 1, .step 3, .step 4, .exec 0, .step 1]

end launcher

namespace launcher

/-- Process 1 has failed. -/
def failed : State launcher :=
  (launched true).after awaited [.exec 0, .step 2, .exec 1, .step 5, .exec 1]

/-- `step()` has rethrown the exception. -/
def raised : State launcher := (failed.move (.step 3)).getD failed

end launcher

end Cxxdes
