-- SUMMARY: When a token will be executed and when a process will end, as far as the environment already determines it.
import Cxxdes.Timing.Flow
import Cxxdes.Run.Compositions

/-!
# What an environment expects

`s.Expects o n` says that the tokens, handlers and processes of `s` are such that `o` is due at
time `n`: a token that is pending, or that a process releases at its end, or that a handler
schedules when its children have reported; and a process that awaits expressions of which each
is due in turn.
-/

namespace Cxxdes

variable {P : Program} {s : State P} {c : CoroId} {t : TokenId} {n : Int}

/-- Something that will happen: a token is executed, or a process ends. -/
inductive Occurrence where
  | fires (t : TokenId)
  | ends (c : CoroId)

/-- `ts` are the tokens that have yet to report to handler `h`. -/
structure State.Outstanding (s : State P) (h : HandlerId) (ts : List TokenId) : Prop where
  nodup : ts.Nodup
  mem : ∀ t, t ∈ ts ↔ t < s.nextToken ∧ (s.tokens t).handler = some h ∧ t ∉ s.executed
  remaining : (s.handlers h).remaining = ts.length
  total : ts.length ≤ (s.handlers h).total

/-- Process `c` has returned, with a value if it has to. -/
structure State.Valued (s : State P) (c : CoroId) : Prop where
  called : c < s.nextCoro
  finished : (s.coros c).status = .finished
  value : (s.coros c).void = true ∨ (s.coros c).returnValue.isSome = true

mutual
/-- `await_resume` of the awaitable does no more than to look for exceptions. -/
def Awaitable.Checks {U : Type} : Awaitable U → Prop
  | .timeout _ _ _ _ => True
  | .coroutine _ _ => True
  | .comp _ as => ChecksAll as
  | _ => False

def Awaitable.ChecksAll {U : Type} : List (Awaitable U) → Prop
  | [] => True
  | a :: as => a.Checks ∧ ChecksAll as
end

theorem Awaitable.Checks.isRef {U : Type} {a : Awaitable U} (h : a.Checks) : a.isRef = false := by
  cases a with
  | ref => exact h.elim
  | _ => rfl

/-- `c` is suspended in `a`, and only token `t` can resume it. If `a` is a process, it holds the
token until it has returned. -/
structure State.WaitsIn (s : State P) (c : CoroId) (a : Awaitable P.User)
    (k : Result P.Value P.Error → P.Frame) (t : TokenId) : Prop where
  status : (s.coros c).status = .suspended a k
  token : a.token = some t
  handler : (s.tokens t).handler = none
  coroData : (s.tokens t).coroData = some c
  checks : a.Checks
  value : ∀ p tkn, a = .coroutine p tkn →
    t ∈ (s.coros p.coro).completionTokens ∨ s.Valued p.coro

inductive State.Expects (s : State P) : Occurrence → Int → Prop where
  | pending (t : TokenId) (hq : t ∈ s.queue) (hnow : s.now ≤ (s.tokens t).time) :
      s.Expects (.fires t) (s.tokens t).time
  | completion (c : CoroId) (t : TokenId) (n : Int) (ht : t ∈ (s.coros c).completionTokens)
      (hu : (s.coros c).unique = false) (hlat : 0 ≤ (s.tokens t).time)
      (h : s.Expects (.ends c) n) : s.Expects (.fires t) (n + (s.tokens t).time)
  | output (h : HandlerId) (t : TokenId) (ts : List TokenId) (due : TokenId → Int) (n : Int)
      (hout : (s.handlers h).completionTkn = some t) (hlat : 0 ≤ (s.tokens t).time)
      (hts : s.Outstanding h ts) (hdue : ∀ u ∈ ts, s.Expects (.fires u) (due u))
      (hn : (s.handlers h).cond.Decides (ts.map due) n) :
      s.Expects (.fires t) (n + (s.tokens t).time)
  | initial (c : CoroId) (f : P.Frame) (t : TokenId) (es : List (Flow P.User))
      (hst : (s.coros c).status = .initial f) (hq : t ∈ s.queue)
      (hh : (s.tokens t).handler = none) (hcd : (s.tokens t).coroData = some c)
      (hnow : s.now ≤ (s.tokens t).time) (hp : Performs f es) (hfit : Flow.FitAll P es) :
      s.Expects (.ends c) ((s.tokens t).time + Flow.durSeq (s.tokens t).time es)
  | running (c : CoroId) (f : P.Frame) (es : List (Flow P.User))
      (hst : (s.coros c).status = .running f) (hp : Performs f es) (hfit : Flow.FitAll P es) :
      s.Expects (.ends c) (s.now + Flow.durSeq s.now es)
  | suspended (c : CoroId) (a : Awaitable P.User) (k : Result P.Value P.Error → P.Frame)
      (t : TokenId) (n : Int) (es : List (Flow P.User)) (hw : s.WaitsIn c a k t)
      (h : s.Expects (.fires t) n) (hp : ∀ v, Performs (k (.ok v)) es)
      (hfit : Flow.FitAll P es) : s.Expects (.ends c) (n + Flow.durSeq n es)

namespace State.Expects

/-- Nothing is expected in the past. -/
theorem now_le {o : Occurrence} (h : s.Expects o n) : s.now ≤ n := by
  induction h with
  | pending t hq hnow => exact hnow
  | completion c t n ht hu hlat h ih => omega
  | output h t ts due n hout hlat hts hdue hn ih =>
      obtain ⟨u, hu, rfl⟩ := List.mem_map.mp hn.mem
      have := ih u hu
      omega
  | initial c f t es hst hq hh hcd hnow hp hfit =>
      have := Flow.durSeq_nonneg (s.tokens t).time hfit
      omega
  | running c f es hst hp hfit =>
      have := Flow.durSeq_nonneg s.now hfit
      omega
  | suspended c a k t n es hw h hp hfit ih =>
      have := Flow.durSeq_nonneg n hfit
      omega

/-- A token that is expected is held by something that leads to it. -/
theorem live (h : s.Expects (.fires t) n) : s.Live t := by
  cases h with
  | pending _ hq => exact .inl hq
  | completion c _ _ ht => exact .inr (.inr (.inl ⟨c, ht⟩))
  | output h _ _ _ _ hout => exact .inr (.inr (.inr ⟨h, hout⟩))

/-- A pending token is expected at its time. -/
theorem time (h : s.Expects (.fires t) n) (hs : Sound s) (ht : t ∈ s.queue) :
    n = (s.tokens t).time := by
  obtain ⟨gone, own, ho⟩ := hs.owned
  have hown := ho.queue t ht
  cases h with
  | pending => rfl
  | completion c _ _ hc =>
      rw [ho.completion c t hc] at hown
      cases hown
  | output h _ _ _ _ hout =>
      rw [ho.output h t hout] at hown
      cases hown

/-- While no body runs, a pending token is due by the time of what is expected. -/
theorem exists_due {o : Occurrence} (h : s.Expects o n)
    (hidle : ∀ c f, (s.coros c).status ≠ .running f) :
    ∃ u ∈ s.queue, (s.tokens u).time ≤ n := by
  induction h with
  | pending t hq hnow => exact ⟨t, hq, Int.le_refl _⟩
  | completion c t n ht hu hlat h ih =>
      obtain ⟨u, hq, hle⟩ := ih
      exact ⟨u, hq, by omega⟩
  | output h t ts due n hout hlat hts hdue hn ih =>
      obtain ⟨u, hu, rfl⟩ := List.mem_map.mp hn.mem
      obtain ⟨v, hq, hle⟩ := ih u hu
      exact ⟨v, hq, by omega⟩
  | initial c f t es hst hq hh hcd hnow hp hfit =>
      have := Flow.durSeq_nonneg (s.tokens t).time hfit
      exact ⟨t, hq, by omega⟩
  | running c f es hst => exact absurd hst (hidle c f)
  | suspended c a k t n es hw h hp hfit ih =>
      have := Flow.durSeq_nonneg n hfit
      obtain ⟨u, hq, hle⟩ := ih
      exact ⟨u, hq, by omega⟩

end State.Expects

/-! ### await_resume without exceptions -/

/-- No token has an exception. -/
def State.Unraised (s : State P) : Prop := ∀ t, (s.tokens t).eptr = none

theorem State.Unraised.update (h : s.Unraised) {tkn : Token P.Error} (ht : tkn.eptr = none)
    (u : TokenId) : (Function.update s.tokens t tkn u).eptr = none := by
  by_cases hu : u = t
  · rw [hu, Function.update_self]
    exact ht
  · rw [Function.update_of_ne hu]
    exact h u

theorem State.Unraised.releaseAll (h : s.Unraised) (ts : List TokenId) :
    (s.releaseAll ts).Unraised := fun u => ((s.releaseAll_fields ts u).2.2).trans (h u)

theorem Edit.unraised {s' : State P} {cd : Option CoroId} {m : TokenId} {nn : Prop}
    (he : Edit cd m nn s s') (h : s.Unraised) : s'.Unraised := by
  cases he with
  | newCoro | setObject => exact h
  | startCoro | newCompletion | timeout | newWaiter | newHandler => exact h.update rfl
  | install u hd => exact h.update (h u)
  | wake evt => exact h.releaseAll _

theorem Edits.unraised {s' : State P} {cd : Option CoroId} {m : TokenId} {nn : Prop}
    (he : Edits cd m nn s s') (h : s.Unraised) : s'.Unraised :=
  Edits.invariant (fun _ _ hs he => he.unraised hs) he h

/-- No exception-only token has been pushed. -/
structure State.Ordered (s : State P) : Prop where
  legal : s.legal = true
  pushed : ∀ t, (s.pushed t).hasPriority = false

theorem State.Ordered.scheduleToken (h : s.Ordered) {t : TokenId}
    (ht : (s.tokens t).eptr = none) : (s.scheduleToken t).Ordered := by
  have hkey : (s.tokens t).hasPriority = false := by
    unfold Token.hasPriority
    rw [ht]
    simp
  refine ⟨?_, fun u => ?_⟩
  · simp [State.scheduleToken, h.legal, hkey, h.pushed]
  · by_cases hu : u = t
    · subst hu
      simpa [State.scheduleToken, Token.key] using hkey
    · simpa [State.scheduleToken, Function.update_of_ne hu] using h.pushed u

theorem State.Ordered.releaseAll {s : State P} (h : s.Ordered) (hun : s.Unraised)
    (ts : List TokenId) : (s.releaseAll ts).Ordered := by
  induction ts generalizing s with
  | nil => exact h
  | cons t ts ih =>
      have h0 : (s.setToken t { s.tokens t with time := (s.tokens t).time + s.now }).Ordered :=
        ⟨h.legal, h.pushed⟩
      have h1 : (s.releaseToken t).Ordered :=
        h0.scheduleToken (by simpa [State.setToken] using hun t)
      exact ih h1 (hun.releaseAll [t])

theorem Edit.ordered {s' : State P} {cd : Option CoroId} {m : TokenId} {nn : Prop}
    (he : Edit cd m nn s s') (hun : s.Unraised) (h : s.Ordered) : s'.Ordered := by
  cases he with
  | newCoro | setObject | newCompletion | newWaiter | newHandler | install =>
      exact ⟨h.legal, h.pushed⟩
  | startCoro c priority henv =>
      have h0 : (s.newToken ⟨s.now + (s.coros c).latency,
          resolvePriority (s.coros c).priority priority, some c, none, none⟩).Ordered :=
        ⟨h.legal, h.pushed⟩
      have h1 := h0.scheduleToken (t := s.nextToken) (by simp [State.newToken])
      exact ⟨h1.legal, h1.pushed⟩
  | timeout time priority hlat =>
      have h0 : (s.newToken ⟨time, priority, cd, none, none⟩).Ordered := ⟨h.legal, h.pushed⟩
      exact h0.scheduleToken (by simp [State.newToken])
  | wake evt =>
      have h1 := h.releaseAll hun (s.events evt)
      exact ⟨h1.legal, h1.pushed⟩

theorem Edits.ordered {s' : State P} {cd : Option CoroId} {m : TokenId} {nn : Prop}
    (he : Edits cd m nn s s') (hun : s.Unraised) (h : s.Ordered) : s'.Ordered :=
  (Edits.invariant (I := fun s => s.Unraised ∧ s.Ordered)
    (fun _ _ hs he => ⟨he.unraised hs.1, he.ordered hs.1 hs.2⟩) he ⟨hun, h⟩).2

theorem State.Unraised.checkToken (h : s.Unraised) (tkn : Option TokenId) :
    s.checkToken tkn = .ok () := by
  unfold State.checkToken
  cases tkn with
  | none => rfl
  | some t => simp [h t]

mutual
theorem awaitResumeTag_checks {a : Awaitable P.User} (ha : a.Checks) (h : s.Unraised) :
    awaitResumeTag a s = (.ok (), s) := by
  cases a with
  | timeout => rfl
  | coroutine p tkn => simp only [awaitResumeTag, h.checkToken]
  | comp c as => exact awaitResumeAll_checks ha h
  | _ => exact ha.elim

theorem awaitResumeAll_checks {as : List (Awaitable P.User)} (ha : Awaitable.ChecksAll as)
    (h : s.Unraised) : awaitResumeAll as s = (.ok (), s) := by
  cases as with
  | nil => rfl
  | cons a as =>
      simp only [awaitResumeAll, awaitResumeTag_checks ha.1 h]
      exact awaitResumeAll_checks ha.2 h
end

/-- The result of a `co_await` is not an exception. -/
theorem awaitResume_checks {a : Awaitable P.User} (ha : a.Checks) (h : s.Unraised)
    (hval : ∀ p tkn, a = .coroutine p tkn → s.Valued p.coro) :
    ∃ v, awaitResume a s = (.ok v, s) := by
  unfold awaitResume
  rw [awaitResumeTag_checks ha h]
  cases a with
  | timeout => exact ⟨.unit, rfl⟩
  | comp => exact ⟨.unit, rfl⟩
  | coroutine p tkn =>
      simp only [State.returnValue]
      cases (hval p tkn rfl).value with
      | inl hvoid => exact ⟨.unit, by rw [if_pos hvoid]⟩
      | inr hsome =>
          obtain ⟨v, hv⟩ := Option.isSome_iff_exists.mp hsome
          by_cases hvoid : (s.coros p.coro).void = true
          · exact ⟨.unit, by rw [if_pos hvoid]⟩
          · exact ⟨.val v, by rw [if_neg hvoid, hv]⟩
  | _ => exact ha.elim

end Cxxdes
