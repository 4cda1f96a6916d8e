-- SUMMARY: No wake-up is lost: a process that waits in an operation is registered while its guard is false, or it is about to test its guard.
import Cxxdes.Run.Current
import Cxxdes.Sync.Monitor

/-!
# Wake-ups

Every operation that may enable another one wakes the event in the same step of its
body. So between two steps the guard of every registered waiter is false, whatever
happened since it was registered, and a waiter that has been woken tests its guard
again before it leaves the loop.
-/

namespace Cxxdes

variable {V E : Type} {M : Monitor V E} {C : Client M}

/-! ### Bodies of operations -/

/-- The body of the innermost call. -/
def Inlined.top {S : SubProgram} : Inlined S → S.Body
  | .body b => b
  | .within c _ => c.top

/-- The action neither awaits nor uses a handle. -/
def Action.Local {U φ V E : Type} : Action U φ V E → Prop
  | .tau _ => True
  | .coReturn _ => True
  | .throw _ => True
  | _ => False

/-- While the guard is false the operation waits, and tests it again. -/
theorem Inlined.next_wait {i : Inlined C.sub} {op : M.Op} (htop : i.top = .enter op)
    {m : M.Data × C.Memory} (hcan : M.can op m.1 = false) (now : Int) :
    i.next m now =
      (m, .await (.wait C.event 0 PriorityConsts.inherit none) fun _ => i) := by
  induction i with
  | body b =>
      obtain rfl : b = .enter op := htop
      simp [Inlined.next, Client.next', Client.enter, hcan, Action.map]
  | within c k ih => simp [Inlined.next, ih htop, Action.map]

/-- Once the guard is true the operation changes the object. It wakes the event in the
same step, if it does. -/
theorem Inlined.next_perform {i : Inlined C.sub} {op : M.Op} (htop : i.top = .enter op)
    {m : M.Data × C.Memory} (hcan : M.can op m.1 = true) (now : Int) :
    (i.next m now).1 = ((M.perform op m.1).2, m.2) ∧
      (((i.next m now).2.Local ∧
          (M.wakes op = false ∨ ∃ e, (M.perform op m.1).1 = .error e)) ∨
        ∃ k, (i.next m now).2 = .await (.wake C.event) k ∧ ∀ r op', (k r).top ≠ .enter op') := by
  induction i with
  | body b =>
      obtain rfl : b = .enter op := htop
      cases hp : (M.perform op m.1).1 with
      | error e => simp [Inlined.next, Client.next', Client.enter, hcan, hp, Action.map,
          Action.Local]
      | ok v =>
          cases hw : M.wakes op with
          | false => simp [Inlined.next, Client.next', Client.enter, hcan, hp, hw, Action.map,
              Action.Local]
          | true => simp [Inlined.next, Client.next', Client.enter, hcan, hp, hw, Action.map,
              Inlined.top]
  | within c k ih =>
      obtain ⟨hm, h⟩ := ih htop
      refine ⟨hm, ?_⟩
      rcases h with ⟨hl, hno⟩ | ⟨k', hk, htop'⟩
      · refine .inl ⟨?_, hno⟩
        unfold Inlined.next
        cases hact : (c.next m now).2 <;> rw [hact] at hl <;> trivial
      · refine .inr ⟨fun r => .within (k' r) k, ?_, fun r op' => htop' r op'⟩
        unfold Inlined.next
        rw [hk]
        rfl

/-- Outside of the operations a body changes neither the object nor its event. -/
theorem Inlined.next_outside {i : Inlined C.sub} (htop : ∀ op, i.top ≠ .enter op)
    (m : M.Data × C.Memory) (now : Int) :
    (i.next m now).1.1 = m.1 ∧ (i.next m now).2.Avoids C.event ∧
      ∀ a k, (i.next m now).2 = .await a k → ∀ r op, (k r).top ≠ .enter op := by
  induction i with
  | body b =>
      cases b with
      | enter op => exact absurd rfl (htop op)
      | leave v => simp [Inlined.next, Client.next', Action.map, Action.Avoids]
      | user b =>
          have hout := C.keepsOut b m.1 m.2 now
          cases hact : (C.next b m.1 m.2 now).2 with
          | call g k => simp [Inlined.next, Client.next', hact, Action.Avoids]
          | operate op k => simp [Inlined.next, Client.next', hact, Action.Avoids]
          | act a =>
              rw [hact] at hout
              cases a with
              | await a k =>
                  refine ⟨rfl, ?_, ?_⟩
                  · simp only [Inlined.next, Client.next', hact, Action.map]
                    exact hout
                  · intro a' k' hk r op
                    simp only [Inlined.next, Client.next', hact, Action.map] at hk
                    cases hk
                    simp [Inlined.top]
              | tau | create | declare | move | bind | coReturn | throw =>
                  simp [Inlined.next, Client.next', hact, Action.map, Action.Avoids]
  | within c k ih =>
      obtain ⟨hm, hout, hk⟩ := ih htop
      refine ⟨hm, ?_⟩
      unfold Inlined.next
      cases hact : (c.next m now).2 with
      | await a k' =>
          rw [hact] at hout
          refine ⟨hout, fun a' k1 h1 r op => ?_⟩
          cases h1
          exact hk a k' hact r op
      | tau | create | declare | move | bind | coReturn | throw =>
          exact ⟨trivial, fun _ _ h1 => by cases h1⟩

/-! ### Processes in an operation -/

/-- The program of the processes of a client, with its calls evaluated directly. -/
abbrev Client.program (C : Client M) : Program := inlined C.sub

variable {s s' : State C.program}

/-- Process `c` runs and is about to test the guard of `op`. -/
def State.Testing (s : State C.program) (c : CoroId) (op : M.Op) : Prop :=
  ∃ i : Inlined C.sub, (s.coros c).status = .running (.user i) ∧ i.top = .enter op

/-- Process `c` is suspended in the loop of `op`. -/
def State.Blocked (s : State C.program) (c : CoroId) (op : M.Op) : Prop :=
  ∃ a k, ∃ i : Inlined C.sub, (s.coros c).status = .suspended a k ∧
    k (.ok .unit) = .user i ∧ i.top = .enter op

/-- The event of the object holds a token that resumes process `c`. -/
def State.Registered (s : State C.program) (c : CoroId) : Prop :=
  ∃ t ∈ s.events C.event, (s.tokens t).coroData = some c

/-- The token `t` will resume process `c` in the `event_.wait()` of an operation. -/
def State.WaitsFor (s : State C.program) (c : CoroId) (t : TokenId) : Prop :=
  (∃ p k, (s.coros c).status = .suspended (.wait C.event 0 p (some t)) k) ∧
    (t ∈ s.events C.event ∨ t ∈ s.queue) ∧
    (s.tokens t).coroData = some c ∧ (s.tokens t).handler = none

/-- What holds of the processes that use the object. -/
structure Watched (s : State C.program) : Prop where
  registered : ∀ c, s.Registered c → (s.coros c).status = .finished ∨
    ∃ op, (s.Blocked c op ∨ s.Testing c op) ∧ M.can op s.memory.1 = false
  waits : ∀ c op, s.Blocked c op → ∃ t, s.WaitsFor c t
  frames : s.Frames (Frame.Avoids C.event)

theorem State.Blocked.congr {c : CoroId} {op : M.Op} (h : s.Blocked c op)
    (hst : (s'.coros c).status = (s.coros c).status) : s'.Blocked c op := by
  obtain ⟨a, k, i, h1, h2⟩ := h
  exact ⟨a, k, i, hst.trans h1, h2⟩

theorem State.Testing.congr {c : CoroId} {op : M.Op} (h : s.Testing c op)
    (hst : (s'.coros c).status = (s.coros c).status) : s'.Testing c op := by
  obtain ⟨i, h1, h2⟩ := h
  exact ⟨i, hst.trans h1, h2⟩

/-- The operation in whose loop process `c` is suspended. -/
def State.operation (s : State C.program) (c : CoroId) : Option M.Op :=
  match (s.coros c).status with
  | .suspended _ k =>
    match k (.ok .unit) with
    | .user i =>
      match i.top with
      | .enter op => some op
      | _ => none
    | _ => none
  | _ => none

theorem State.blocked_of_operation {c : CoroId} {op : M.Op} (h : s.operation c = some op) :
    s.Blocked c op := by
  unfold State.operation at h
  split at h
  · next a k hst =>
      split at h
      · next i hk =>
          split at h
          · next op' htop =>
              cases h
              exact ⟨a, k, i, hst, hk, htop⟩
          · cases h
      · cases h
  · cases h

/-- A process is in one operation at most. -/
theorem State.Blocked.unique {c : CoroId} {op op' : M.Op} (h : s.Blocked c op)
    (h' : s.Blocked c op') : op = op' := by
  obtain ⟨a, k, i, hst, hk, htop⟩ := h
  obtain ⟨a', k', i', hst', hk', htop'⟩ := h'
  rw [hst] at hst'
  cases hst'
  rw [hk] at hk'
  cases hk'
  rw [htop] at htop'
  cases htop'
  rfl

namespace Watched

/-- The object and its event do not change, or less is enabled and fewer tokens are
held. Only process `x` may do something else than end. -/
theorem keep (h : Watched s) (hs : Sound s) (x : Option CoroId)
    (hcan : s'.events C.event ≠ [] → ∀ op, M.can op s'.memory.1 = true →
      M.can op s.memory.1 = true)
    (hev : ∀ t ∈ s'.events C.event, t ∈ s.events C.event)
    (hheld : ∀ t ∈ s.events C.event, t ∈ s'.events C.event ∨ t ∈ s'.queue)
    (hqueue : ∀ t ∈ s.queue, ∀ c, some c ≠ x → (s.tokens t).coroData = some c →
      (s.tokens t).handler = none → t ∈ s'.queue)
    (htok : ∀ t, t ∈ s.events C.event ∨ t ∈ s.queue →
      (s'.tokens t).coroData = (s.tokens t).coroData ∧
      (s'.tokens t).handler = (s.tokens t).handler)
    (hst : ∀ c, some c ≠ x → (s.coros c).env = .here →
      (s'.coros c).status = (s.coros c).status ∨ (s'.coros c).status = .finished)
    (hsus : ∀ c a k, some c ≠ x → (s'.coros c).status = .suspended a k →
      (s.coros c).status = .suspended a k)
    (hreg : ∀ c, x = some c → s.Registered c → (s'.coros c).status = .finished ∨
      ∃ op, s'.Testing c op ∧ M.can op s.memory.1 = false)
    (hwait : ∀ c op, x = some c → ¬ s'.Blocked c op)
    (hfr : s'.Frames (Frame.Avoids C.event)) : Watched s' where
  registered c := by
    rintro ⟨t, ht, hcd⟩
    have ht0 := hev t ht
    have hcan := hcan (List.ne_nil_of_mem ht)
    rw [(htok t (.inl ht0)).1] at hcd
    have hfalse : ∀ op, M.can op s.memory.1 = false → M.can op s'.memory.1 = false := by
      intro op h0
      cases h1 : M.can op s'.memory.1 with
      | false => rfl
      | true => rw [hcan op h1] at h0; cases h0
    by_cases hx : some c = x
    · rcases hreg c hx.symm ⟨t, ht0, hcd⟩ with hf | ⟨op, htest, h0⟩
      · exact .inl hf
      · exact .inr ⟨op, .inr htest, hfalse op h0⟩
    · rcases hst c hx (hs.started.token t c hcd) with heq | hf
      · rcases h.registered c ⟨t, ht0, hcd⟩ with hf | ⟨op, hop, h0⟩
        · exact .inl (heq.trans hf)
        · exact .inr ⟨op, hop.imp (·.congr heq) (·.congr heq), hfalse op h0⟩
      · exact .inl hf
  waits c op hb := by
    have hx : some c ≠ x := fun hx => hwait c op hx.symm hb
    obtain ⟨a, k, i, hsta, hk, htop⟩ := hb
    have hsta0 := hsus c a k hx hsta
    obtain ⟨t, ⟨p, k0, hst0⟩, hloc, hcd, hfree⟩ := h.waits c op ⟨a, k, i, hsta0, hk, htop⟩
    obtain ⟨h1, h2⟩ := htok t hloc
    rw [hst0] at hsta0
    cases hsta0
    refine ⟨t, ⟨p, k, hsta⟩, ?_, h1.trans hcd, h2.trans hfree⟩
    rcases hloc with hloc | hloc
    · exact hheld t hloc
    · exact .inr (hqueue t hloc c hx hcd hfree)
  frames := hfr

/-- Awaiting outside of the object, by whichever process. -/
theorem edits {cd : Option CoroId} {nn : Prop} (h : Watched s) (hs : Sound s)
    (he : Edits cd s.nextToken nn s s') (hout : Outside C.event s s') : Watched s' := by
  have hx := he.ext
  obtain ⟨gone, own, ho⟩ := hs.owned
  refine h.keep hs none (fun _ op => by rw [hx.memory]; exact id) ?_ ?_ ?_ ?_ ?_ ?_ ?_ ?_
    (hout.frames h.frames)
  · rw [hout.events]; exact fun t ht => ht
  · rw [hout.events]; exact fun t ht => .inl ht
  · exact fun t ht _ _ _ _ => hx.queue t ht
  · intro t ht
    have hlt : t < s.nextToken := ho.live_lt (ht.elim (fun ht => .inr (.inl ⟨_, ht⟩)) .inl)
    obtain ⟨h1, h2, -⟩ := hx.tokenFields t hlt hlt
    exact ⟨h2, h1⟩
  · exact fun c _ henv => .inl (hx.coro c (hs.tidy.fresh.lt (by simp [henv]))).status
  · exact fun c a k _ hst => he.status_old (by simp) hst
  · exact fun c hc => by cases hc
  · exact fun c op hc => by cases hc

/-- One action of a process that is not in a wait, outside of the object or at its end. -/
theorem ran (h : Watched s) (hs : Sound s) {c : CoroId} {f : C.program.Frame}
    {act : Action C.User C.program.Frame V E}
    (hnr : ¬ s.Registered c) {nn : Prop} (hran : Ran nn (s.ran f) c act s')
    (hout : Outside C.event s s')
    (hcan : ∀ op, M.can op s'.memory.1 = true → M.can op s.memory.1 = true)
    (hnb : ∀ a k, act = .await a k → ∀ i : Inlined C.sub, ∀ op, k (.ok .unit) = .user i →
      i.top ≠ .enter op) : Watched s' := by
  have hoth := hran.others
  obtain ⟨gone, own, ho⟩ := hs.owned
  refine h.keep hs (some c) (fun _ => hcan) ?_ ?_ ?_ ?_ ?_ ?_ ?_ ?_ (hout.frames h.frames)
  · rw [hout.events]; exact fun t ht => ht
  · rw [hout.events]; exact fun t ht => .inl ht
  · exact fun t ht _ _ _ _ => hoth.queue t ht
  · exact fun t ht => hoth.token t (ho.live_lt (ht.elim (fun ht => .inr (.inl ⟨_, ht⟩)) .inl))
  · exact fun c' hne henv => .inl (hoth.status c' (fun he => hne (congrArg some he))
      (hs.tidy.fresh.lt (by simp [henv])))
  · exact fun c' a k hne hsus => hoth.suspended c' a k (fun he => hne (congrArg some he)) hsus
  · intro c' hc hreg
    cases hc
    exact absurd hreg hnr
  · rintro c' op hc ⟨a, k, i, hsus, hk, htop⟩
    cases hc
    obtain ⟨a0, hact⟩ := hran.suspended hsus
    exact hnb a0 k hact i op hk htop

/-- The operation wakes the event: no token is held any more. -/
theorem wake (h : Watched s) (hs : Sound s) {c : CoroId} (hnr : ¬ s.Registered c)
    (mem : M.Data × C.Memory) {k : Result V E → C.program.Frame}
    (hk : (k (.ok .unit)).Avoids C.event) :
    Watched ((({ s with memory := mem } : State C.program).wake C.event).deliver c none k
      (.ok .unit)) := by
  have hco : ∀ c' ≠ c, (((({ s with memory := mem } : State C.program).wake C.event).deliver c
      none k (.ok .unit)).coros c') = s.coros c' := by
    intro c' hne
    simp [State.deliver, State.log, State.setStatus, State.setCoro, State.wake,
      Function.update_of_ne hne]
  have hself : (((({ s with memory := mem } : State C.program).wake C.event).deliver c
      none k (.ok .unit)).coros c).status = .running (k (.ok .unit)) := by
    simp [State.deliver, State.log, State.setStatus, State.setCoro]
  refine h.keep hs (some c) ?_ ?_ ?_ ?_ ?_ ?_ ?_ ?_ ?_ ?_
  · simp [State.deliver, State.log, State.setStatus, State.setCoro, State.wake]
  · simp [State.deliver, State.log, State.setStatus, State.setCoro, State.wake]
  · intro t ht
    exact .inr (by simp [State.deliver, State.log, State.setStatus, State.setCoro, State.wake, ht])
  · intro t ht _ _ _ _
    simp [State.deliver, State.log, State.setStatus, State.setCoro, State.wake, ht]
  · intro t _
    obtain ⟨h1, h2, -⟩ :=
      ({ s with memory := mem } : State C.program).releaseAll_fields (s.events C.event) t
    exact ⟨h2, h1⟩
  · intro c' hne _
    exact .inl (by rw [hco c' fun he => hne (congrArg some he)])
  · intro c' a k' hne hsus
    rwa [hco c' fun he => hne (congrArg some he)] at hsus
  · rintro c' hc hreg
    cases hc
    exact absurd hreg hnr
  · rintro c' op hc ⟨a, k', i, hsus, -⟩
    cases hc
    rw [hself] at hsus
    cases hsus
  · intro c'
    by_cases hc : c' = c
    · rw [hc, hself]; exact hk
    · rw [hco c' hc]; exact h.frames c'

/-- The operation waits, while its guard is false. -/
theorem wait (h : Watched s) (hs : Sound s) (hsole : s.Sole) {c : CoroId} {i : Inlined C.sub}
    {op : M.Op} (hst : (s.coros c).status = .running (.user i)) (htop : i.top = .enter op)
    (hcan : M.can op s.memory.1 = false) (p : Int) :
    Watched ((s.newWaiter C.event ⟨0, p, s.current, none, none⟩).suspend c
      (.wait C.event 0 p (some s.nextToken)) fun _ => .user i) := by
  let s1 := s.newWaiter C.event ⟨0, p, s.current, none, none⟩
  let s2 := s1.suspend c (.wait C.event 0 p (some s.nextToken)) fun _ => .user i
  have hq : Quiet s1 s2 := .suspend s1 c _ _
  have hco := suspend_coros s1 c (.wait C.event 0 p (some s.nextToken)) fun _ => .user i
  have hmem : s2.memory = s.memory := rfl
  have hother : ∀ c' ≠ c, s2.coros c' = s.coros c' := by
    intro c' hne
    change (s1.suspend c _ _).coros c' = _
    rw [hco, Function.update_of_ne hne]
    rfl
  have hself : (s2.coros c).status =
      .suspended (.wait C.event 0 p (some s.nextToken)) fun _ => .user i := by
    change ((s1.suspend c _ _).coros c).status = _
    rw [hco, Function.update_self]
  have hblocked : s2.Blocked c op := ⟨_, _, i, hself, rfl, htop⟩
  have hnew : s2.tokens s.nextToken = ⟨0, p, some c, none, none⟩ := by
    rw [hq.tokens]
    simp [s1, State.newWaiter, State.newToken, hsole c _ hst]
  have hold : ∀ t < s.nextToken, s2.tokens t = s.tokens t := by
    intro t ht
    rw [hq.tokens]
    simp [s1, State.newWaiter, State.newToken, Function.update_of_ne (Nat.ne_of_lt ht)]
  have hev : s2.events C.event = s.events C.event ++ [s.nextToken] := by
    rw [hq.events]
    simp [s1, State.newWaiter]
  obtain ⟨gone, own, ho⟩ := hs.owned
  have hlt : ∀ t, t ∈ s.events C.event ∨ t ∈ s.queue → t < s.nextToken :=
    fun t ht => ho.live_lt (ht.elim (fun ht => .inr (.inl ⟨_, ht⟩)) .inl)
  refine ⟨fun c' hreg => ?_, fun c' op' hb => ?_, fun c' => ?_⟩
  · -- a registered process is `c`, or it was registered before
    by_cases hc : c' = c
    · subst hc
      exact .inr ⟨op, .inl hblocked, hcan⟩
    · obtain ⟨t, ht, hcd⟩ := hreg
      change t ∈ s2.events C.event at ht
      rw [hev, List.mem_append] at ht
      rcases ht with ht | ht
      · change (s2.tokens t).coroData = some c' at hcd
        rw [hold t (hlt t (.inl ht))] at hcd
        change (s2.coros c').status = .finished ∨ _
        rw [hother c' hc]
        refine (h.registered c' ⟨t, ht, hcd⟩).imp id ?_
        rintro ⟨op', hop, h0⟩
        have heq : (s2.coros c').status = (s.coros c').status := by rw [hother c' hc]
        exact ⟨op', hop.imp (·.congr heq) (·.congr heq), h0⟩
      · obtain rfl := List.mem_singleton.mp ht
        change (s2.tokens _).coroData = some c' at hcd
        rw [hnew] at hcd
        exact absurd (Option.some.inj hcd).symm hc
  · by_cases hc : c' = c
    · subst hc
      refine ⟨s.nextToken, ⟨p, _, hself⟩, .inl ?_, ?_, ?_⟩
      · change _ ∈ s2.events C.event
        rw [hev]
        simp
      · exact congrArg Token.coroData hnew
      · exact congrArg Token.handler hnew
    · have heq : (s.coros c').status = (s2.coros c').status := by rw [hother c' hc]
      obtain ⟨t, ⟨p', k, hsus⟩, hloc, hcd, hfree⟩ := h.waits c' op' (hb.congr heq)
      have htok := hold t (hlt t hloc)
      refine ⟨t, ⟨p', k, heq.symm.trans hsus⟩, ?_, ?_, ?_⟩
      · refine hloc.imp (fun ht => ?_) fun ht => ?_
        · change _ ∈ s2.events C.event
          rw [hev]
          exact List.mem_append_left _ ht
        · change _ ∈ s2.queue
          rw [hq.queue]
          exact ht
      · exact (congrArg Token.coroData htok).trans hcd
      · exact (congrArg Token.handler htok).trans hfree
  · by_cases hc : c' = c
    · subst hc
      change (s2.coros c').status.All _
      rw [hself]
      exact fun _ => trivial
    · change (s2.coros c').status.All _
      rw [hother c' hc]
      exact h.frames c'

/-- Process `c` gets control from the token `t` that is executed. -/
theorem resumed (h : Watched s) (hs : Sound s) {t : TokenId} {c : CoroId} {f : C.program.Frame}
    {s1 : State C.program} (hcd : (s.tokens t).coroData = some c)
    (he : Edits (some c) s.nextToken False { s.pop t with current := some c } s1)
    (hout : Outside C.event { s.pop t with current := some c } s1)
    (hco : s'.coros = Function.update s1.coros c { s1.coros c with status := .running f })
    (hq : Quiet s1 s') (hmem : s'.memory = s1.memory) (hf : f.Avoids C.event)
    (hreg : s.Registered c → ∃ op, s'.Testing c op ∧ M.can op s.memory.1 = false) :
    Watched s' := by
  have hx := he.ext
  obtain ⟨gone, own, ho⟩ := hs.owned
  refine h.keep hs (some c) (fun _ op => ?_) ?_ ?_ ?_ ?_ ?_ ?_ ?_ ?_ ?_
  · rw [hmem, hx.memory]; exact id
  · rw [hq.events, hout.events]; exact fun t ht => ht
  · rw [hq.events, hout.events]; exact fun t ht => .inl ht
  · intro u hu c' hne hcd' _
    have hut : u ≠ t := by
      rintro rfl
      exact hne (hcd'.symm.trans hcd)
    rw [hq.queue]
    exact hx.queue u ((List.mem_erase_of_ne hut).mpr hu)
  · intro u hu
    have hlt : u < s.nextToken := ho.live_lt (hu.elim (fun ht => .inr (.inl ⟨_, ht⟩)) .inl)
    obtain ⟨h1, h2, -⟩ := hx.tokenFields u hlt hlt
    rw [hq.tokens]
    exact ⟨h2, h1⟩
  · intro c' hne henv
    have hne : c' ≠ c := fun he => hne (congrArg some he)
    rw [hco, Function.update_of_ne hne]
    exact .inl (hx.coro c' (hs.tidy.fresh.lt (by simp [henv]))).status
  · intro c' a k hne hsus
    have hne : c' ≠ c := fun he => hne (congrArg some he)
    rw [hco, Function.update_of_ne hne] at hsus
    exact he.status_old (by simp) hsus
  · intro c' hc hr
    cases hc
    exact .inr (hreg hr)
  · rintro c' op hc ⟨a, k, i, hsus, -⟩
    cases hc
    rw [hco, Function.update_self] at hsus
    cases hsus
  · have hfr : ({ s.pop t with current := some c } : State C.program).Frames
        (Frame.Avoids C.event) := h.frames
    have hd : ({ s1.coros c with status := .running f } : CoroData C.program).status.All
        (Frame.Avoids C.event) := hf
    exact (hout.frames hfr).update hd hco

/-- A step that no process notices. -/
theorem passed (h : Watched s) (hs : Sound s) {t : TokenId}
    (hno : (s.tokens t).coroData = none ∨ (s.tokens t).handler ≠ none)
    (hmem : s'.memory = s.memory) (hev : s'.events = s.events)
    (hqueue : ∀ u ∈ s.queue.erase t, u ∈ s'.queue)
    (htok : ∀ u, (s'.tokens u).handler = (s.tokens u).handler ∧
      (s'.tokens u).coroData = (s.tokens u).coroData)
    (hco : s'.coros = s.coros) : Watched s' := by
  refine h.keep hs none (fun _ op => by rw [hmem]; exact id) ?_ ?_ ?_ ?_ ?_ ?_ ?_ ?_ ?_
  · rw [hev]; exact fun t ht => ht
  · rw [hev]; exact fun t ht => .inl ht
  · intro u hu c _ hcd hfree
    have hut : u ≠ t := by
      rintro rfl
      exact hno.elim (fun h0 => by rw [hcd] at h0; cases h0) fun h0 => h0 hfree
    exact hqueue u ((List.mem_erase_of_ne hut).mpr hu)
  · exact fun u _ => ⟨(htok u).2, (htok u).1⟩
  · exact fun c _ _ => .inl (by rw [hco])
  · exact fun c a k _ hsus => by rwa [hco] at hsus
  · exact fun c hc => by cases hc
  · exact fun c op hc => by cases hc
  · exact h.frames.congr hco

theorem stepped (h : Watched s) (hs : Sound s) {t : TokenId} (hst : Stepped s t s') :
    Watched s' := by
  cases hst with
  | rethrow i e hh =>
      exact h.passed hs (.inr (by simp [hh])) rfl rfl (fun _ hu => hu) (fun _ => ⟨rfl, rfl⟩) rfl
  | fire i out hh he hout =>
      refine h.passed (t := t) hs (.inr (by simp [hh])) rfl rfl (fun u hu => ?_)
        (hs.wired.fire_fields hh hout) rfl
      exact List.mem_append_left _ hu
  | count i hh =>
      exact h.passed hs (.inr (by simp [hh])) rfl rfl (fun _ hu => hu) (fun _ => ⟨rfl, rfl⟩) rfl
  | start c f hh hc hst =>
      have hf := h.frames c
      rw [hst] at hf
      refine h.resumed hs hc (f := f) .refl (.refl _) rfl
        (.trans (.setStatus _ c _) (.of_coros rfl)) rfl hf fun hr => ?_
      rcases h.registered c hr with hfin | ⟨op, ⟨a, k, i, hsus, -⟩ | ⟨i, hrun, -⟩, -⟩
      · rw [hst] at hfin; cases hfin
      · rw [hst] at hsus; cases hsus
      · rw [hst] at hrun; cases hrun
  | resume c a k r s1 hh hc hst hr =>
      have hf := h.frames c
      rw [hst] at hf
      have hout : Outside C.event _ (awaitResume a { s.pop t with current := some c }).2 :=
        awaitResume_outside a _
      rw [hr] at hout
      refine h.resumed hs hc (f := k r) (awaitResume_edits_of hr) hout rfl
        (.trans (.of_coros rfl) (.deliver _ c _ k r)) rfl (hf r) fun hreg => ?_
      rcases h.registered c hreg with hfin | ⟨op, hb | ⟨i, hrun, -⟩, h0⟩
      · rw [hst] at hfin; cases hfin
      · -- a wait on the event ends without an exception, so the guard is tested again
        obtain ⟨u, ⟨p, k', hsus⟩, -⟩ := h.waits c op hb
        obtain ⟨a', k'', i, hsus', hk, htop⟩ := hb
        rw [hst] at hsus hsus'
        cases hsus
        cases hsus'
        obtain rfl : r = .ok .unit := (Prod.mk.inj hr).1.symm
        refine ⟨op, ⟨i, ?_, htop⟩, h0⟩
        rw [← hk]
        simp [State.deliver, State.log, State.setStatus, State.setCoro]
      · rw [hst] at hrun; cases hrun
  | raise e hh hc =>
      exact h.passed hs (.inl hc) rfl rfl (fun _ hu => hu) (fun _ => ⟨rfl, rfl⟩) rfl
  | skip hh hc =>
      exact h.passed hs (.inl hc) rfl rfl (fun _ hu => hu) (fun _ => ⟨rfl, rfl⟩) rfl

/-- A body that is not at the test of a false guard is not registered. -/
theorem not_registered (h : Watched s) {c : CoroId} {f : C.program.Frame}
    (hst : (s.coros c).status = .running f)
    (hno : ∀ i op, f = .user i → i.top = .enter op → M.can op s.memory.1 = true) :
    ¬ s.Registered c := by
  intro hr
  rcases h.registered c hr with hfin | ⟨op, ⟨a, k, i, hsus, -⟩ | ⟨i, hrun, htop⟩, h0⟩
  · rw [hst] at hfin; cases hfin
  · rw [hst] at hsus; cases hsus
  · rw [hst] at hrun
    cases hrun
    rw [hno i op rfl htop] at h0
    cases h0

/-- An action of a body outside of the operations. -/
theorem acted (h : Watched s) (hs : Sound s) {c : CoroId} {f : C.program.Frame}
    (hst : (s.coros c).status = .running f) (hact : Acted (s.ran f) c (s.next f) s')
    (hno : ∀ i op, f = .user i → i.top = .enter op → M.can op s.memory.1 = true)
    (hcan : ∀ op, M.can op (s.ran f).memory.1 = true → M.can op s.memory.1 = true)
    (havoid : (s.next f).Avoids C.event) (hall : (s.next f).All (Frame.Avoids C.event))
    (hnb : ∀ a k, s.next f = .await a k → ∀ i : Inlined C.sub, ∀ op, k (.ok .unit) = .user i →
      i.top ≠ .enter op) : Watched s' := by
  have htidy : (s.ran f).Tidy False := ⟨hs.tidy.fresh, hs.tidy.object⟩
  have hout : Outside C.event s (s.ran f) := .of_coros rfl rfl
  have hran : Ran False (s.ran f) c (s.next f) s' := hact.ran htidy fun hf => hf.elim
  refine h.ran hs (h.not_registered hst hno) hran (hout.trans (hact.outside havoid hall)) ?_ hnb
  rw [hact.memory htidy]
  exact hcan

theorem init (m : M.Data × C.Memory) : Watched (State.init m : State C.program) where
  registered c hr := by
    obtain ⟨t, ht, -⟩ := hr
    cases ht
  waits c op hb := by
    obtain ⟨a, k, i, hst, -⟩ := hb
    cases hst
  frames _ := trivial

theorem exec (h : Watched s) (hM : M.Settles) (hs : Sound s) (hsole : s.Sole) {c : CoroId}
    (hex : s.exec c = .ok s') : Watched s' := by
  obtain ⟨f, hst, hact⟩ := exec_acted hex
  cases f with
  | raise e =>
      exact h.acted hs hst hact (by simp) (fun _ h0 => h0) trivial trivial
        (by simp [State.next, Frame.next])
  | seq as =>
      have hf := h.frames c
      rw [hst] at hf
      cases as with
      | nil =>
          exact h.acted hs hst hact (by simp) (fun _ h0 => h0) trivial trivial
            (by simp [State.next, Frame.next])
      | cons a as =>
          cases a with
          | ref o =>
              refine h.acted hs hst hact (by simp) (fun _ h0 => h0) trivial ?_
                (by simp [State.next, Frame.next])
              rintro (⟨_ | _⟩ | p)
              · trivial
              · exact hf.2
              · exact ⟨trivial, hf.2⟩
          | timeout | wait | wake | coroutine | call | sequential | async | comp =>
              refine h.acted hs hst hact (by simp) (fun _ h0 => h0) hf.1 (fun r => ?_) ?_
              · cases r with
                | ok v => exact hf.2
                | error e => trivial
              · intro a' k hk i op hki
                cases hk
                cases hki
  | user i =>
      have hnext : s.next (.user i) = (i.next s.memory s.now).2.map .user := rfl
      have hmem : (s.ran (.user i)).memory = (i.next s.memory s.now).1 := rfl
      have hall : (s.next (.user i)).All (Frame.Avoids C.event) := by
        rw [hnext]
        cases (i.next s.memory s.now).2 <;> first | trivial | exact fun _ => trivial
      by_cases htop : ∃ op, i.top = .enter op
      · obtain ⟨op, htop⟩ := htop
        cases hcan : M.can op s.memory.1 with
        | false =>
            have hi := Inlined.next_wait htop hcan s.now
            have hran : s.ran (.user i) = s := by
              have hm : ((Frame.user i : C.program.Frame).next s.memory s.now).1 = s.memory :=
                hmem.trans (congrArg Prod.fst hi)
              unfold State.ran
              rw [hm]
            have hwait : s.next (.user i) =
                .await (.wait C.event 0 PriorityConsts.inherit none) fun _ => .user i := by
              rw [hnext, hi]
              rfl
            rw [hran, hwait] at hact
            cases hact
            exact h.wait hs hsole hst htop hcan _
        | true =>
            have hno : ∀ j op', (Frame.user i : C.program.Frame) = .user j →
                j.top = .enter op' → M.can op' s.memory.1 = true := by
              intro j op' hj hj'
              cases hj
              rw [htop] at hj'
              cases hj'
              exact hcan
            obtain ⟨hm, ⟨hl, hsettle⟩ | ⟨k, hk, htop'⟩⟩ :=
              Inlined.next_perform htop hcan s.now
            · refine h.acted hs hst hact hno (fun op' h0 => ?_) ?_ hall fun a k hk => ?_
              · rw [hmem, hm] at h0
                exact hM op s.memory.1 hcan hsettle op' h0
              · rw [hnext]
                cases hi : (i.next s.memory s.now).2 <;> rw [hi] at hl <;> trivial
              · rw [hnext] at hk
                cases hi : (i.next s.memory s.now).2 <;> rw [hi] at hl hk <;> trivial
            · have hwake : s.next (.user i) =
                  .await (.wake C.event) fun r => .user (k r) := by
                rw [hnext, hk]
                rfl
              rw [hwake] at hact
              cases hact
              exact h.wake (k := fun r => .user (k r)) hs (h.not_registered hst hno)
                (s.ran (.user i)).memory trivial
      · have htop : ∀ op, i.top ≠ .enter op := fun op hop => htop ⟨op, hop⟩
        obtain ⟨hm, havoid, hnb⟩ := Inlined.next_outside htop s.memory s.now
        refine h.acted hs hst hact ?_ (fun op h0 => ?_) ?_ hall fun a k hk j op hj hj' => ?_
        · intro j op hj hj'
          cases hj
          exact absurd hj' (htop op)
        · rwa [hmem, hm] at h0
        · rw [hnext]
          cases hi : (i.next s.memory s.now).2 <;> rw [hi] at havoid <;> exact havoid
        · rw [hnext] at hk
          cases hi : (i.next s.memory s.now).2 with
          | await a' k' =>
              rw [hi] at hk
              cases hk
              cases hj
              exact hnb _ _ hi _ op hj'
          | tau | create | declare | move | bind | coReturn | throw => rw [hi] at hk; cases hk

end Watched

/-! ### Runs -/

/-- `step()` is not called by a body, and what the owner of the environment binds does
not mention the event of the object. -/
def Client.Private (C : Client M) (s : State C.program) : Label C.program → Prop
  | .bind a => a.Avoids C.event
  | .step _ => s.current = none
  | _ => True

theorem Step.watched {l : Label C.program} (hstep : Step s l s') (hM : M.Settles)
    (hl : C.Private s l) (hs : Sound s) (hsole : s.Sole) (h : Watched s) : Watched s' := by
  cases hstep with
  | call f o =>
      have he : Edits none s.nextToken False s (s.newCoro (.user (C.program.start f)) o) :=
        .single (.newCoro _ o (.user f) (fun hf => hf.elim))
      exact h.edits hs he (.newCoro (f := .user (C.program.start f)) trivial o)
  | bind a =>
      have he : Edits none s.nextToken False s (s.bind a) :=
        bind_call_edits hs.tidy a (fun hf => hf.elim)
      exact h.edits hs he ((toHandle_outside (a := a) hl s).trans (.detach _ 0))
  | elsewhere c henv =>
      have hst : ∀ c', ((s.setCoro c { s.coros c with env := .elsewhere }).coros c').status =
          (s.coros c').status := by
        intro c'
        by_cases hc : c' = c
        · subst hc; simp [State.setCoro]
        · simp [State.setCoro, Function.update_of_ne hc]
      refine h.keep hs none (fun _ _ h0 => h0) (fun _ ht => ht) (fun _ ht => .inl ht)
        (fun _ ht _ _ _ _ => ht) (fun _ _ => ⟨rfl, rfl⟩) (fun c' _ _ => .inl (hst c'))
        (fun c' a k _ hsus => (hst c').symm.trans hsus) (fun _ hc => by cases hc)
        (fun _ _ hc => by cases hc) fun c' => ?_
      rw [hst c']
      exact h.frames c'
  | step t _ htop hst => exact h.stepped hs (step_stepped hst)
  | advance deadline => exact ⟨h.registered, h.waits, h.frames⟩
  | exec c _ hex => exact h.exec hM hs hsole hex
  | reset hcur hrun =>
      have hst : ∀ c, (s.reset.coros c).status =
          if c ∈ s.managed then .finished else (s.coros c).status := by
        intro c
        unfold State.reset
        rw [State.destroyAll_eq]
        by_cases hc : c ∈ s.managed <;> simp [hc]
      have hmem : s.reset.memory = s.memory := by
        unfold State.reset
        rw [State.destroyAll_eq]
      have hev : s.reset.events = s.events := by
        unfold State.reset
        rw [State.destroyAll_eq]
      have htok : s.reset.tokens = s.tokens := by
        unfold State.reset
        rw [State.destroyAll_eq]
      refine ⟨fun c hr => ?_, fun c op hb => ?_, fun c => ?_⟩
      · -- a registered process was bound, so it is destroyed or has ended
        obtain ⟨t, ht, hcd⟩ := hr
        rw [hev] at ht
        rw [htok] at hcd
        rw [hst c]
        split
        · exact .inl rfl
        · next hm =>
            refine .inl ?_
            by_contra hne
            exact hm (hs.listed.managed c (hs.started.token t c hcd) (complete_of_status hne))
      · -- a suspended process was bound, so it is destroyed
        obtain ⟨a, k, i, hsus, -⟩ := hb
        rw [hst c] at hsus
        split at hsus
        · cases hsus
        · next hm =>
            have henv := hs.started.begun c
            exfalso
            refine hm (hs.listed.managed c ?_ (complete_of_status (by simp [hsus])))
            by_contra hne
            rcases henv hne with h0 | ⟨f, h0⟩ <;> rw [hsus] at h0 <;> cases h0
      · rw [hst c]
        split
        · trivial
        · exact h.frames c

theorem Reachable.watched (h : Reachable C.Private s) (hM : M.Settles) :
    Watched s := by
  obtain ⟨m, h⟩ := h
  have hall : (Sound s ∧ s.Sole) ∧ Watched s := by
    refine h.invariant (I := fun s => (Sound s ∧ s.Sole) ∧ Watched s) ?_ ?_
    · rintro s l s' ⟨⟨hs, hsole⟩, hw⟩ hc hstep
      refine ⟨⟨hstep.sound hs, hstep.sole hs.tidy (fun t ht _ => ?_) hsole⟩,
        hstep.watched hM hc hs hsole hw⟩
      subst ht
      exact hc
    · exact ⟨⟨Sound.init m, fun c f hf => by cases hf⟩, Watched.init m⟩
  exact hall.2

/-! ### semaphore, queue and mutex -/

theorem semaphore_settles (w : Nat) : (semaphore V E w).Settles := by
  rintro op d - (h | ⟨e, h⟩)
  · cases h
  · cases op <;> cases h

theorem queue_settles : (queue V E).Settles := by
  rintro op d - (h | ⟨e, h⟩)
  · cases h
  · cases op <;> cases h

theorem mutex_settles (handle : Nat → V) : (mutex V E handle).Settles := by
  intro op d _ hno op' hop'
  cases op' with
  | release | move | assign | destroy => rfl
  | acquire =>
      cases op with
      | acquire => simp [mutex] at hop'
      | release h =>
          cases hv : d.valid h with
          | false => simpa [mutex, hv] using hop'
          | true => simp [mutex, hv] at hno
      | move | assign | destroy => exact hop'

/-- What holds when a process waits in `up()` or `down()`. -/
def Semaphore.Stops {w : Nat} : Semaphore.Op → Semaphore w → Prop
  | .up, d => d.max ≤ d.value
  | .down, d => d.value = 0

/-- What holds when a process waits in `put()` or `pop()`. -/
def Queue.Stops : Queue.Op V → Queue V → Prop
  | .put _, d => d.bounded = true ∧ d.maxSize ≤ d.size
  | .pop, d => d.size = 0

/-- What holds when a process waits in `acquire()`. No other operation waits. -/
def Mutex.Stops : Mutex.Op → Mutex → Prop
  | .acquire, d => d.owned = true
  | _, _ => False

/-- The states of the runs of an environment whose processes use the object. -/
def Client.Reaches (C : Client M) (s : State (trampoline C.sub)) : Prop :=
  Reachable (fun s l => C.Private s.inline l.inline) s

theorem Client.Reaches.inline {s : State (trampoline C.sub)} (h : C.Reaches s) :
    Reachable C.Private s.inline :=
  Reachable.view (v := Machine.evaluation C.sub) h

/-- No process is registered in the event unless its operation cannot proceed (`stops`).
A process that waits in an operation is registered or has a pending token, so when no
token is pending no process waits that could proceed. -/
def Client.Awake (C : Client M) (stops : M.Op → M.Data → Prop) (s : State (trampoline C.sub)) :
    Prop :=
  (∀ c op, s.inline.Registered c → s.inline.Blocked c op → stops op s.memory.1) ∧
  (∀ c op, s.inline.Blocked c op → ∃ t, s.inline.WaitsFor c t) ∧
  (s.queue = [] → ∀ c op, s.inline.Blocked c op → stops op s.memory.1)

theorem Client.Reaches.awake {s : State (trampoline C.sub)} (h : C.Reaches s) (hM : M.Settles)
    {stops : M.Op → M.Data → Prop} (hstops : ∀ op d, M.can op d = false → stops op d) :
    C.Awake stops s := by
  have hw : Watched s.inline := h.inline.watched hM
  have hreg : ∀ c op, s.inline.Registered c → s.inline.Blocked c op → stops op s.memory.1 := by
    intro c op hr hb
    rcases hw.registered c hr with hfin | ⟨op', hb' | ⟨i, hrun, -⟩, h0⟩
    · obtain ⟨a, k, i, hsus, -⟩ := hb
      rw [hfin] at hsus
      cases hsus
    · obtain rfl := hb'.unique hb
      exact hstops op' _ h0
    · obtain ⟨a, k, j, hsus, -⟩ := hb
      rw [hrun] at hsus
      cases hsus
  refine ⟨hreg, hw.waits, fun hq c op hb => ?_⟩
  obtain ⟨t, -, hloc, hcd, -⟩ := hw.waits c op hb
  rcases hloc with ht | ht
  · exact hreg c op ⟨t, ht, hcd⟩ hb
  · have ht : t ∈ s.queue := ht
    rw [hq] at ht
    cases ht

/-- An operation that waits when nothing is pending is impossible. -/
theorem Client.Reaches.stopped {s : State (trampoline C.sub)} (h : C.Reaches s) (hM : M.Settles)
    (hq : s.queue = []) {c : CoroId} {op : M.Op} (hb : s.inline.Blocked c op) :
    M.can op s.memory.1 = false := by
  have hawake : C.Awake (fun op d => M.can op d = false) s := h.awake hM fun _ _ h => h
  exact hawake.2.2 hq c op hb

theorem no_lost_wakeup {V E : Type} :
    (∀ (w : Nat) (C : Client (semaphore V E w)) (s : State (trampoline C.sub)),
      C.Reaches s → C.Awake Semaphore.Stops s) ∧
    (∀ (C : Client (queue V E)) (s : State (trampoline C.sub)),
      C.Reaches s → C.Awake Queue.Stops s) ∧
    (∀ (handle : Nat → V) (C : Client (mutex V E handle)) (s : State (trampoline C.sub)),
      C.Reaches s → C.Awake Mutex.Stops s) := by
  refine ⟨fun w C s h => h.awake (semaphore_settles w) fun op d h0 => ?_,
    fun C s h => h.awake queue_settles fun op d h0 => ?_,
    fun handle C s h => h.awake (mutex_settles handle) fun op d h0 => ?_⟩
  · cases op with
    | up => simpa [semaphore, Semaphore.Stops, BitVec.not_lt] using h0
    | down => simpa [semaphore, Semaphore.Stops] using h0
  · cases op with
    | put v => simpa [queue, Queue.Stops, Queue.canPut, Queue.bounded] using h0
    | pop => simpa [queue, Queue.Stops, Queue.canPop] using h0
  · cases op with
    | acquire => simpa [mutex, Mutex.Stops] using h0
    | release | move | assign | destroy => cases h0

/-- A client of a semaphore with one body, which takes a permit. -/
def taker : Client (semaphore Unit Unit 8) where
  User := Unit
  Body := Bool
  Memory := Unit
  event := 0
  start _ := false
  next b _ m _ := (m, if b then .act (.coReturn none) else .operate .down fun _ => true)
  keepsOut b _ _ _ := by cases b <;> trivial

namespace taker

/-- The body of process 0 makes `n` actions. -/
def acts (s : State (trampoline taker.sub)) : Nat → State (trampoline taker.sub)
  | 0 => s
  | n + 1 => match (acts s n).move (.exec 0) with
    | some s' => s'
    | none => acts s n

theorem acts_reaches {s : State (trampoline taker.sub)} (h : taker.Reaches s) (n : Nat) :
    taker.Reaches (acts s n) := by
  induction n with
  | zero => exact h
  | succ n ih =>
      unfold acts
      split
      · next s' hs' => exact Reachable.next (l := .exec 0) ih trivial (State.move_step hs')
      · exact ih

/-- A process has been bound while no permit is available. -/
def bound : State (trampoline taker.sub) :=
  (State.init (⟨0, 1⟩, ())).bind (.call () {})

/-- It has started. -/
def started : State (trampoline taker.sub) :=
  ({ bound.pop 0 with current := some 0 }.setStatus 0
    (.running (.user (Machine.start (S := taker.sub) ())))).log (.started 0 0)

/-- It waits. -/
def waiting : State (trampoline taker.sub) := acts started 5

theorem started_reaches : taker.Reaches started := by
  have hbound : taker.Reaches bound :=
    Reachable.next (l := .bind (.call () {})) (.init _) trivial (.bind _ _ rfl (by decide))
  exact Reachable.next (l := .step 0) hbound rfl
    (.step _ 0 _ (State.isTop_singleton rfl) rfl (by decide))

theorem waiting_blocked : waiting.inline.Blocked 0 .down :=
  ⟨_, _, _, rfl, rfl, rfl⟩

end taker

theorem no_lost_wakeup_taker : taker.waiting.memory.1.value = 0 :=
  have h := no_lost_wakeup.1 8 taker taker.waiting (taker.acts_reaches taker.started_reaches 5)
  h.1 0 .down ⟨2, by decide, rfl⟩ taker.waiting_blocked

end Cxxdes
