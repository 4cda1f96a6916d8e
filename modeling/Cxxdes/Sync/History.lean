-- SUMMARY: The history of the operations on an object is a sequential history of it, and every operation returns its own result to its caller.
import Cxxdes.Run.Statuses
import Cxxdes.Sync.Wakeup

/-!
# Histories of an object

An operation takes effect in one step of the body that performs it, between the test of
its guard and the next suspension. The history of a run lists these steps, in their
order, and the steps in which operations return to their callers. The object is at any
time what its history, executed sequentially, has made of it.
-/

namespace Cxxdes

variable {V E : Type}

/-! ### Sequential histories -/

/-- What happens to an object: process `c` performs an operation with result `r`, or
comes back from one with `v`. -/
inductive Monitor.Event (M : Monitor V E) where
  | performed (c : CoroId) (op : M.Op) (r : Except (Exn E) (Option V))
  | returned (c : CoroId) (v : Option V)

variable {M : Monitor V E}

def Monitor.Event.process : M.Event → CoroId
  | .performed c _ _ => c
  | .returned c _ => c

/-- The sequential history `h` leads from `d` to `d'`: every operation is performed
while its guard holds, with the result it has then. -/
def Monitor.Replays (M : Monitor V E) (d : M.Data) : List M.Event → M.Data → Prop
  | [], d' => d' = d
  | .performed _ op r :: h, d' =>
    M.can op d = true ∧ r = (M.perform op d).1 ∧ M.Replays (M.perform op d).2 h d'
  | .returned _ _ :: h, d' => M.Replays d h d'

theorem Monitor.Replays.append {d d' d'' : M.Data} {h h' : List M.Event}
    (hr : M.Replays d h d') (hr' : M.Replays d' h' d'') : M.Replays d (h ++ h') d'' := by
  induction h generalizing d with
  | nil =>
      obtain rfl : d' = d := hr
      exact hr'
  | cons ev h ih =>
      cases ev with
      | performed c op r =>
          obtain ⟨hcan, hres, hr⟩ := hr
          exact ⟨hcan, hres, ih (d := (M.perform op d).2) hr⟩
      | returned c v =>
          have hr1 : M.Replays d h d' := hr
          exact ih hr1

/-- An invariant of the operations holds at the end of a history. -/
theorem Monitor.Replays.invariant {I : List M.Event → M.Data → Prop} {d d' : M.Data}
    {h : List M.Event} (hr : M.Replays d h d')
    (hperf : ∀ h d c op, I h d → M.can op d = true →
      I (h ++ [.performed c op (M.perform op d).1]) (M.perform op d).2)
    (hret : ∀ h d c v, I h d → I (h ++ [.returned c v]) d) (h0 : I [] d) : I h d' := by
  -- the events before `h` are `pre`
  have hgen : ∀ (h pre : List M.Event) (d : M.Data), I pre d → M.Replays d h d' →
      I (pre ++ h) d' := by
    intro h
    induction h with
    | nil =>
        intro pre d hI hr
        obtain rfl : d' = d := hr
        rwa [List.append_nil]
    | cons ev h ih =>
        intro pre d hI hr
        rw [List.append_cons]
        cases ev with
        | performed c op r =>
            obtain ⟨hcan, rfl, hr⟩ := hr
            exact ih (pre ++ [_]) _ (hperf pre d c op hI hcan) hr
        | returned c v => exact ih (pre ++ [_]) d (hret pre d c v hI) hr
  exact hgen h [] d h0 hr

/-- What process `c` did last. -/
def Monitor.last (c : CoroId) (h : List M.Event) : Option M.Event :=
  (h.filter fun ev => ev.process = c).getLast?

theorem Monitor.last_append_self {c : CoroId} (h : List M.Event) {ev : M.Event}
    (hev : ev.process = c) : M.last c (h ++ [ev]) = some ev := by
  simp [Monitor.last, List.filter_append, hev]

theorem Monitor.last_append_other {c : CoroId} (h : List M.Event) {h' : List M.Event}
    (hev : ∀ ev ∈ h', ev.process ≠ c) : M.last c (h ++ h') = M.last c h := by
  have h1 : h'.filter (fun ev => ev.process = c) = [] :=
    List.filter_eq_nil_iff.mpr fun ev hm => by simpa using hev ev hm
  simp [Monitor.last, List.filter_append, h1]

/-! ### What a step records -/

variable {C : Client M}

/-- What happens to the object `d` when the body of process `c` runs on in a stage. -/
def Client.occurs (C : Client M) (c : CoroId) (d : M.Data) : C.Stage → List M.Event
  | .user _ => []
  | .enter op => if M.can op d then [.performed c op (M.perform op d).1] else []
  | .leave v => [.returned c v]

/-- The body that runs in the top frame, if it is its turn. -/
def Machine.active {S : SubProgram} (m : Machine S) : Option S.Body :=
  match m.control, m.callStack with
  | .inside, top :: _ =>
    match m.frames top with
    | .running b => some b
    | _ => none
  | _, _ => none

/-- What a step of the processes of a client does to the object. -/
def Client.records (C : Client M) (s : State (trampoline C.sub)) :
    Label (trampoline C.sub) → List M.Event
  | .exec c =>
    match (s.coros c).status with
    | .running (.user m) => (m.active.map (C.occurs c s.memory.1)).getD []
    | _ => []
  | _ => []

/-- The runs of a client from an object with data `d`, with their history. -/
def Client.History (C : Client M) (K : State C.program → Label C.program → Prop) (d : M.Data)
    (h : List M.Event) (s : State (trampoline C.sub)) : Prop :=
  ∃ m, Transition.Recorded Step (fun s l => K s.inline l.inline) C.records (State.init (d, m)) h s

/-- `Client.records` for processes that evaluate their calls directly. -/
def Client.record (C : Client M) (s : State C.program) : Label C.program → List M.Event
  | .exec c =>
    match (s.coros c).status with
    | .running (.user i) => C.occurs c s.memory.1 i.top
    | _ => []
  | _ => []

theorem Client.records_user {s : State (trampoline C.sub)} {c : CoroId} {m : Machine C.sub}
    (hst : (s.coros c).status = .running (.user m)) :
    C.records s (.exec c) = (m.active.map (C.occurs c s.memory.1)).getD [] := by
  simp only [Client.records, hst]

theorem Client.records_other {s : State (trampoline C.sub)} {c : CoroId}
    (hst : ∀ m, (s.coros c).status ≠ .running (.user m)) : C.records s (.exec c) = [] := by
  unfold Client.records
  cases h : (s.coros c).status with
  | initial f | suspended a k | finished => simp only [h]
  | running f =>
      cases f with
      | user m => exact absurd h (hst m)
      | seq | raise => simp only [h]

theorem Client.record_user {s : State C.program} {c : CoroId} {i : Inlined C.sub}
    (hst : (s.coros c).status = .running (.user i)) :
    C.record s (.exec c) = C.occurs c s.memory.1 i.top := by
  simp only [Client.record, hst]

theorem Client.record_other {s : State C.program} {c : CoroId}
    (hst : ∀ i, (s.coros c).status ≠ .running (.user i)) : C.record s (.exec c) = [] := by
  unfold Client.record
  cases h : (s.coros c).status with
  | initial f | suspended a k | finished => simp only [h]
  | running f =>
      cases f with
      | user i => exact absurd h (hst i)
      | seq | raise => simp only [h]

/-- A step records the end of an operation, or the operation that is performed in it. -/
theorem Client.record_cases (C : Client M) (s : State C.program) (l : Label C.program) :
    C.record s l = [] ∨ ∃ c, ∃ i : Inlined C.sub, l = .exec c ∧
      (s.coros c).status = .running (.user i) ∧
      ((∃ v, i.top = .leave v ∧ C.record s l = [.returned c v]) ∨
        ∃ op, i.top = .enter op ∧ M.can op s.memory.1 = true ∧
          C.record s l = [.performed c op (M.perform op s.memory.1).1]) := by
  cases l with
  | call | bind | elsewhere | step | advance | reset => exact .inl rfl
  | exec c =>
      by_cases hst : ∃ i : Inlined C.sub, (s.coros c).status = .running (.user i)
      · obtain ⟨i, hst⟩ := hst
        rw [Client.record_user hst]
        cases htop : i.top with
        | user b => exact .inl rfl
        | leave v => exact .inr ⟨c, i, rfl, hst, .inl ⟨v, htop, rfl⟩⟩
        | enter op =>
            cases hcan : M.can op s.memory.1 with
            | false => exact .inl (by simp [Client.occurs, hcan])
            | true =>
                exact .inr ⟨c, i, rfl, hst, .inr ⟨op, htop, hcan, by simp [Client.occurs, hcan]⟩⟩
      · exact .inl (Client.record_other fun i hi => hst ⟨i, hi⟩)

theorem Client.record_process {s : State C.program} {l : Label C.program} {c : CoroId}
    (hl : l ≠ .exec c) : ∀ ev ∈ C.record s l, ev.process ≠ c := by
  intro ev hev hc
  rcases C.record_cases s l with h | ⟨c', i, rfl, -, ⟨v, -, h⟩ | ⟨op, -, -, h⟩⟩ <;>
    rw [h] at hev
  · cases hev
  · obtain rfl := List.mem_singleton.mp hev
    exact hl (congrArg Label.exec hc)
  · obtain rfl := List.mem_singleton.mp hev
    exact hl (congrArg Label.exec hc)

/-! ### Histories of the inlined processes -/

/-- A machine whose loop has not resumed its top frame does nothing that shows. -/
theorem Machine.Ok.silent {S : SubProgram} {m : Machine S} (h : m.Ok)
    (hc : m.control ≠ .inside) (mem : S.Memory) (now : Int) :
    ∃ m', m.next mem now = (mem, .tau m') ∧ m'.inline = m.inline := by
  unfold Machine.next
  cases hctl : m.control with
  | inside => exact absurd hctl hc
  | loop r => exact ⟨_, rfl, (resumeTop_ok h hctl).2⟩
  | check => exact ⟨_, rfl, (checkLoop_ok h hctl).2.1⟩
  | returned | stuck =>
      obtain ⟨top, rest, hs, ht⟩ := h
      unfold TopOk at ht
      rw [hctl] at ht
      exact ht.elim

/-- The body that is active is the body of the innermost call. -/
theorem Machine.Ok.active {S : SubProgram} {m : Machine S} (h : m.Ok)
    (hc : m.control = .inside) : m.active = some m.inline.top := by
  obtain ⟨top, rest, hs, ht⟩ := h
  unfold TopOk at ht
  rw [hc] at ht
  obtain ⟨-, b, hb⟩ := ht
  have hact : m.active = some b := by
    unfold Machine.active
    simp only [hc, hs.stack, hb]
  have hplug : ∀ (is : List FrameId) (i : Inlined S), (m.plug is i).top = i.top := by
    intro is
    induction is with
    | nil => exact fun i => rfl
    | cons j js ih =>
        intro i
        unfold plug
        split
        · exact ih _
        · exact ih _
  rw [hact, hs.inline_eq, hplug]
  unfold bodyOf
  rw [hb]
  rfl

theorem Machine.inactive {S : SubProgram} {m : Machine S} (hc : m.control ≠ .inside) :
    m.active = none := by
  unfold Machine.active
  cases hctl : m.control with
  | inside => exact absurd hctl hc
  | loop | check | returned | stuck => rfl

/-- Every step is a step of the inlined processes that records the same, or neither shows
nor records anything. -/
theorem Client.step_inline {s s' : State (trampoline C.sub)} {l : Label (trampoline C.sub)}
    (hstep : Step s l s') (hok : s.Frames (Frame.Ok (Machine.evaluation C.sub))) :
    (Step s.inline l.inline s'.inline ∧ C.records s l = C.record s.inline l.inline) ∨
      (s'.inline = s.inline ∧ C.records s l = []) := by
  cases l with
  | exec c =>
      obtain ⟨hex, hfits⟩ : s.exec c = .ok s' ∧ s'.Fits := by cases hstep; exact ⟨‹_›, ‹_›⟩
      obtain ⟨f, hst, -⟩ := exec_acted hex
      have hf := hok c
      rw [hst] at hf
      have hst' : (s.inline.coros c).status = .running (f.view (Machine.evaluation C.sub)) := by
        change (s.coros c).status.view _ = _
        rw [hst]
        rfl
      -- a frame of rank 0 makes no silent step
      have hlock : f.rank (Machine.evaluation C.sub) = 0 → Step s.inline (.exec c) s'.inline := by
        intro h0
        refine .exec _ c _ ?_ hfits
        have hnext := (Frame.step_view hf s.memory s.now).resolve_left ?_
        · have h1 := exec_lockstep s hst hnext
          rw [hex] at h1
          exact h1
        · rintro ⟨f', -, -, hrank⟩
          rw [h0] at hrank
          exact absurd hrank (Nat.not_lt_zero _)
      cases f with
      | seq as =>
          refine .inl ⟨hlock rfl, ?_⟩
          have h1 : (s.inline.coros c).status = .running (.seq as) := hst'
          exact (Client.records_other (by simp [hst])).trans
            (Client.record_other (by simp [h1])).symm
      | raise e =>
          refine .inl ⟨hlock rfl, ?_⟩
          have h1 : (s.inline.coros c).status = .running (.raise e) := hst'
          exact (Client.records_other (by simp [hst])).trans
            (Client.record_other (by simp [h1])).symm
      | user m =>
          have hm : m.Ok := hf
          have h1 : (s.inline.coros c).status = .running (.user m.inline) := hst'
          by_cases hc : m.control = .inside
          · refine .inl ⟨hlock (by change m.rank = 0; unfold Machine.rank; rw [hc]), ?_⟩
            have h2 := Client.record_user h1
            rw [Client.records_user hst, hm.active hc]
            exact h2.symm
          · obtain ⟨m', hnext, hin⟩ := hm.silent hc s.memory s.now
            refine .inr ⟨?_, ?_⟩
            · have hn : (Frame.user m : (trampoline C.sub).Frame).next s.memory s.now =
                  (s.memory, .tau (.user m')) := by
                change ((m.next s.memory s.now).1, (m.next s.memory s.now).2.map Frame.user) = _
                rw [hnext]
                rfl
              obtain ⟨s1, h2, h3, -⟩ := exec_silent (v := Machine.evaluation C.sub) s hst hn
                (congrArg Frame.user hin)
              rw [hex] at h2
              cases h2
              exact h3
            · rw [Client.records_user hst, Machine.inactive hc]
              rfl
  | call f o | bind a | elsewhere c | step t | advance deadline | reset =>
      refine .inl ⟨(hstep.view hok).resolve_right ?_, rfl⟩
      rintro ⟨c, hl, -⟩
      cases hl

/-- A run with a history is one of the inlined processes with the same history. -/
theorem Client.recorded_inline (C : Client M) {K : State C.program → Label C.program → Prop}
    {m : M.Data × C.Memory} {h : List M.Event} {s : State (trampoline C.sub)}
    (hr : Transition.Recorded Step (fun s l => K s.inline l.inline) C.records (State.init m) h s) :
    Transition.Recorded Step K C.record (State.init m) h s.inline := by
  refine hr.invariant (I := fun h s =>
    Transition.Recorded Step K C.record (State.init m) h s.inline) ?_ .refl
  intro h s l s' hruns ih hK hstep
  have hok : s.Frames (Frame.Ok (Machine.evaluation C.sub)) :=
    Reachable.frames ⟨m, hruns⟩ (Machine.evaluation C.sub).closed
  rcases Client.step_inline hstep hok with ⟨h1, h2⟩ | ⟨h1, h2⟩
  · rw [h2]; exact ih.tail hK h1
  · rw [h1, h2, List.append_nil]; exact ih

theorem Client.History.inline {K : State C.program → Label C.program → Prop} {d : M.Data}
    {h : List M.Event} {s : State (trampoline C.sub)} (hr : C.History K d h s) :
    ∃ m, Transition.Recorded Step K C.record (State.init (d, m)) h s.inline := by
  obtain ⟨m, hr⟩ := hr
  exact ⟨m, C.recorded_inline hr⟩

/-! ### The object of a history -/

theorem Stepped.memory {P : Program} {s s' : State P} {t : TokenId} (h : Stepped s t s') :
    s'.memory = s.memory := by
  cases h with
  | resume c a k r s1 hh hc hst hr =>
      have he : Edits none 0 False { s.pop t with current := some c } s1 := awaitResume_edits_of hr
      exact he.ext.memory
  | rethrow | fire | count | start | raise | skip => rfl

/-- Every step changes the object as it records. -/
theorem Client.step_replays {s s' : State C.program} {l : Label C.program} (hstep : Step s l s')
    (hs : s.Tidy False) : M.Replays s.memory.1 (C.record s l) s'.memory.1 := by
  cases hstep with
  | call | elsewhere | advance => exact rfl
  | bind a =>
      have he : Edits none 0 False s (s.bind a) := bind_call_edits hs a (fun hf => hf.elim)
      exact congrArg Prod.fst he.ext.memory
  | step t _ htop hst => exact congrArg Prod.fst (step_stepped hst).memory
  | reset =>
      unfold State.reset
      rw [State.destroyAll_eq]
      exact rfl
  | exec c _ hex =>
      obtain ⟨f, hst, hact⟩ := exec_acted hex
      have hmem : s'.memory = (f.next s.memory s.now).1 :=
        hact.memory ⟨hs.fresh, hs.object⟩
      rw [hmem]
      cases f with
      | raise e =>
          rw [Client.record_other (by simp [hst])]
          exact rfl
      | seq as =>
          rw [Client.record_other (by simp [hst])]
          match as with
          | [] | .timeout .. :: _ | .wait .. :: _ | .wake _ :: _ | .coroutine .. :: _ | .ref _ :: _
          | .call .. :: _ | .sequential .. :: _ | .async _ :: _ | .comp .. :: _ => exact rfl
      | user i =>
          rw [Client.record_user hst]
          change M.Replays _ _ (i.next s.memory s.now).1.1
          cases htop : i.top with
          | user b =>
              exact (Inlined.next_outside (by simp [htop]) s.memory s.now).1
          | leave v =>
              exact (Inlined.next_outside (by simp [htop]) s.memory s.now).1
          | enter op =>
              cases hcan : M.can op s.memory.1 with
              | false =>
                  rw [Inlined.next_wait htop hcan]
                  simp only [Client.occurs, hcan]
                  exact rfl
              | true =>
                  rw [(Inlined.next_perform htop hcan s.now).1]
                  simp only [Client.occurs, hcan]
                  exact ⟨hcan, rfl, rfl⟩

/-- The object is what its history makes of it. -/
theorem Client.History.replays {K : State C.program → Label C.program → Prop} {d : M.Data}
    {h : List M.Event} {s : State (trampoline C.sub)} (hr : C.History K d h s) :
    M.Replays d h s.memory.1 := by
  obtain ⟨m, hr⟩ := hr.inline
  have hgoal : M.Replays d h s.inline.memory.1 := by
    have h0 : M.Replays d [] (State.init (d, m) : State C.program).memory.1 := rfl
    refine hr.invariant (I := fun h (s : State C.program) => M.Replays d h s.memory.1) ?_ h0
    intro h s l s' hruns ih hK hstep
    have htidy : s.Tidy False := Reachable.tidy ⟨(d, m), hruns⟩ (fun hf => hf.elim)
    exact ih.append (C.step_replays hstep htidy)
  exact hgoal

/-- A step of the processes of a client that performs no operation leaves the object as it
is. -/
theorem Client.object_step {K : State C.program → Label C.program → Prop} {d : M.Data}
    {h : List M.Event} {s s' : State (trampoline C.sub)} {l : Label (trampoline C.sub)}
    (hr : C.History K d h s) (hstep : Step s l s') :
    s'.memory.1 = s.memory.1 ∨ ∃ c op, C.records s l =
        [.performed c op (M.perform op s.memory.1).1] ∧
      M.can op s.memory.1 = true ∧ s'.memory.1 = (M.perform op s.memory.1).2 := by
  have hinline := hr.inline
  obtain ⟨m, hr⟩ := hr
  have hok : s.Frames (Frame.Ok (Machine.evaluation C.sub)) :=
    Reachable.frames ⟨(d, m), hr.runs⟩ (Machine.evaluation C.sub).closed
  rcases Client.step_inline hstep hok with ⟨h1, h2⟩ | ⟨h1, -⟩
  · obtain ⟨m', hr'⟩ := hinline
    have htidy : s.inline.Tidy False := Reachable.tidy ⟨(d, m'), hr'.runs⟩ (fun hf => hf.elim)
    have hrep := C.step_replays h1 htidy
    rcases C.record_cases s.inline l.inline with he | ⟨c, i, -, -, ⟨v, -, he⟩ | ⟨op, -, hcan, he⟩⟩
    · rw [he] at hrep
      exact .inl hrep
    · rw [he] at hrep
      exact .inl hrep
    · rw [he] at hrep
      exact .inr ⟨c, op, h2.trans he, hcan, hrep.2.2⟩
  · exact .inl (congrArg (fun s : State C.program => s.memory.1) h1)

/-! ### Actions of the inlined processes -/

namespace Inlined

variable {S : SubProgram} {s : State (inlined S)} {c : CoroId} {i : Inlined S} {m : S.Memory}

/-- The evaluation `i` in the calls whose callers go on with the functions of the list. -/
def wrap : List (Result S.Value S.Error → S.Body) → Inlined S → Inlined S
  | [], i => i
  | k :: ks, i => wrap ks (.within i k)

/-- The callers have no part in a step in which the call does not end. -/
theorem wrap_next {m m' : S.Memory} {now : Int} {a : Action S.User (Inlined S) S.Value S.Error}
    (hi : i.next m now = (m', a)) (ha : a.ends = false)
    (ks : List (Result S.Value S.Error → S.Body)) :
    (wrap ks i).next m now = (m', a.map (wrap ks)) := by
  induction ks generalizing i a with
  | nil =>
      rw [wrap, hi]
      exact congrArg (Prod.mk m') (Action.map_id a).symm
  | cons k ks ih =>
      have hw : (Inlined.within i k).next m now = (m', a.map fun c => .within c k) := by
        simp only [Inlined.next, hi]
        cases a <;> first | rfl | cases ha
      have h := ih hw ((Action.ends_map _ a).trans ha)
      rw [Action.map_map] at h
      exact h

theorem exec_tau {i' : Inlined S} (hst : (s.coros c).status = .running (.user i))
    (hn : i.next s.memory s.now = (m, .tau i')) :
    s.exec c = .ok (({ s with memory := m } : State (inlined S)).setStatus c
      (.running (.user i'))) := by
  have hnext : s.next (.user i) = .tau (.user i') := by
    change (i.next s.memory s.now).2.map Frame.user = _
    rw [hn]
    rfl
  have hran : s.ran (.user i) = { s with memory := m } := by
    change ({ s with memory := (i.next s.memory s.now).1 } : State (inlined S)) = _
    rw [hn]
  rw [State.exec_tau hst hnext, hran]

theorem exec_await {a : Awaitable S.User} {k : Result S.Value S.Error → Inlined S}
    (hst : (s.coros c).status = .running (.user i))
    (hn : i.next s.memory s.now = (m, .await a k)) (hvalid : a.invalid s.movedFrom = false) :
    s.exec c = .ok (({ s with memory := m } : State (inlined S)).coAwait c a
      fun r => .user (k r)) := by
  have hnext : s.next (.user i) = .await a fun r => .user (k r) := by
    change (i.next s.memory s.now).2.map Frame.user = _
    rw [hn]
    rfl
  have hran : s.ran (.user i) = { s with memory := m } := by
    change ({ s with memory := (i.next s.memory s.now).1 } : State (inlined S)) = _
    rw [hn]
  rw [State.exec_await hst hnext hvalid, hran]

/-- The call goes on with a local computation. -/
theorem exec_wrap_tau (ks : List (Result S.Value S.Error → S.Body)) {i' : Inlined S}
    (hst : (s.coros c).status = .running (.user (wrap ks i)))
    (hn : i.next s.memory s.now = (m, .tau i')) :
    ∃ s', s.exec c = .ok s' ∧ (s'.coros c).status = .running (.user (wrap ks i')) ∧
      s'.memory = m :=
  ⟨_, exec_tau hst (wrap_next hn rfl ks), by simp [State.setStatus, State.setCoro], rfl⟩

/-- A call that wakes an event goes on at once. -/
theorem exec_wrap_wake (ks : List (Result S.Value S.Error → S.Body)) {i' : Inlined S}
    {e : EventId}
    (hst : (s.coros c).status = .running (.user (wrap ks i)))
    (hn : i.next s.memory s.now = (m, .await (.wake e) fun _ => i')) :
    ∃ s', s.exec c = .ok s' ∧ (s'.coros c).status = .running (.user (wrap ks i')) ∧
      s'.memory = m := by
  have hwake : ∀ (s : State (inlined S)) k, s.coAwait c (.wake e) k =
      (s.wake e).deliver c none k (.ok .unit) := fun _ _ => rfl
  refine ⟨_, exec_await hst (wrap_next hn rfl ks) rfl, ?_, ?_⟩ <;> rw [hwake]
  · simp [State.deliver, State.log, State.setStatus, State.setCoro]
  · simp [State.deliver, State.log, State.setStatus, State.setCoro, State.wake]

end Inlined

/-! ### Operations and their callers -/

/-- The innermost call goes on in state `b`. -/
def Inlined.put {S : SubProgram} (b : S.Body) : Inlined S → Inlined S
  | .body _ => .body b
  | .within c k => .within (c.put b) k

/-- The innermost call of `i` ends with `r`, and its caller goes on with it. -/
inductive Inlined.ReturnsTo {S : SubProgram} (r : Result S.Value S.Error) :
    Inlined S → Inlined S → Prop where
  | here (b : S.Body) (k : Result S.Value S.Error → S.Body) :
      ReturnsTo r (.within (.body b) k) (.body (k r))
  | within {c c' : Inlined S} (k : Result S.Value S.Error → S.Body) (h : ReturnsTo r c c') :
      ReturnsTo r (.within c k) (.within c' k)

/-- All callers are user bodies. -/
def Inlined.Called : Inlined C.sub → Prop
  | .body _ => True
  | .within c k => c.Called ∧ ∀ r, ∃ b, k r = .user b

/-- The body of the process itself is a user body. -/
def Inlined.Based : Inlined C.sub → Prop
  | .body b => ∃ b', b = .user b'
  | .within _ _ => True

/-- A process begins in a user body, and only user bodies call. -/
def Client.Framed (C : Client M) : C.program.Frame → Prop
  | .user i => i.Called ∧ i.Based
  | _ => True

theorem Inlined.within_next {S : SubProgram} (c : Inlined S)
    (k : Result S.Value S.Error → S.Body) (m : S.Memory) (now : Int) :
    ((Inlined.within c k).next m now).2.ends = false := by
  unfold Inlined.next
  cases (c.next m now).2 <;> rfl

/-- An operation tests its guard again, goes on to its end, or returns to its caller. -/
theorem Inlined.next_enter {i : Inlined C.sub} {op : M.Op} (htop : i.top = .enter op)
    (m : M.Data × C.Memory) (now : Int) :
    (i.next m now).2.All fun i' => i' = i ∨
      (∃ v : Option V, (M.perform op m.1).1 = .ok v ∧ i' = i.put (Client.Stage.leave v)) ∨
      i.ReturnsTo ((M.perform op m.1).1.map .ofReturn) i' := by
  induction i with
  | body b =>
      obtain rfl : b = .enter op := htop
      cases hcan : M.can op m.1 with
      | false => simp [Inlined.next, Client.next', Client.enter, hcan, Action.map, Action.All]
      | true =>
          cases hp : (M.perform op m.1).1 with
          | error e =>
              simp [Inlined.next, Client.next', Client.enter, hcan, hp, Action.map, Action.All]
          | ok v =>
              cases hw : M.wakes op <;>
                simp [Inlined.next, Client.next', Client.enter, hcan, hp, hw, Action.map,
                  Action.All, Inlined.put]
  | within c k ih =>
      have ih := ih htop
      cases c with
      | body b =>
          obtain rfl : b = .enter op := htop
          have hreturns : ∀ r, (Inlined.within (S := C.sub) (.body (.enter op)) k).ReturnsTo r
              (.body (k r)) := fun r => .here _ k
          cases hcan : M.can op m.1 with
          | false => simp [Inlined.next, Client.next', Client.enter, hcan, Action.map, Action.All]
          | true =>
              cases hp : (M.perform op m.1).1 with
              | error e =>
                  simp [Inlined.next, Client.next', Client.enter, hcan, hp, Action.map,
                    Action.All, Except.map, hreturns]
              | ok v =>
                  cases hw : M.wakes op <;>
                    simp [Inlined.next, Client.next', Client.enter, hcan, hp, hw, Action.map,
                      Action.All, Inlined.put, Except.map, hreturns]
      | within c' k' =>
          have hlift : ∀ i', (i' = Inlined.within c' k' ∨
                (∃ v : Option V, (M.perform op m.1).1 = .ok v ∧
                  i' = (Inlined.within c' k').put (Client.Stage.leave v)) ∨
                (Inlined.within c' k').ReturnsTo ((M.perform op m.1).1.map .ofReturn) i') →
              (Inlined.within i' k = .within (.within c' k') k ∨
                (∃ v : Option V, (M.perform op m.1).1 = .ok v ∧
                  Inlined.within i' k = (Inlined.within (.within c' k') k).put
                    (Client.Stage.leave v)) ∨
                (Inlined.within (.within c' k') k).ReturnsTo
                  ((M.perform op m.1).1.map .ofReturn) (.within i' k)) := by
            rintro i' (rfl | ⟨v, hv, rfl⟩ | hr)
            · exact .inl rfl
            · exact .inr (.inl ⟨v, hv, rfl⟩)
            · exact .inr (.inr (.within k hr))
          have hends := Inlined.within_next c' k' m now
          rw [Inlined.next]
          cases hact : ((Inlined.within c' k').next m now).2 with
          | coReturn | throw => rw [hact] at hends; cases hends
          | tau i' => rw [hact] at ih; exact hlift i' ih
          | await a k1 => rw [hact] at ih; exact fun r => hlift _ (ih r)
          | create f o k1 => rw [hact] at ih; exact fun r => hlift _ (ih r)
          | declare p k1 => rw [hact] at ih; exact fun r => hlift _ (ih r)
          | move p k1 => rw [hact] at ih; exact fun r => hlift _ (ih r)
          | bind p k1 => rw [hact] at ih; exact fun r => hlift _ (ih r)

/-- An operation that is performed goes on to its end. -/
theorem Inlined.within_enter {op : M.Op} {m : M.Data × C.Memory} {d' : M.Data} {v : Option V}
    {k : Result V E → C.Stage} (hcan : M.can op m.1 = true)
    (hp : M.perform op m.1 = (.ok v, d')) (hw : M.wakes op = true) (now : Int) :
    (Inlined.within (S := C.sub) (.body (.enter op)) k).next m now =
      ((d', m.2), .await (.wake C.event) fun _ => .within (.body (.leave v)) k) := by
  simp [Inlined.next, Client.next', Client.enter, hcan, hp, hw, Action.map]

/-- At its end an operation returns its value to its caller. -/
theorem Inlined.next_leave {i : Inlined C.sub} {v : Option V} (htop : i.top = .leave v)
    (hi : i.Based) (m : M.Data × C.Memory) (now : Int) :
    ∃ i', i.ReturnsTo (.ok (.ofReturn v)) i' ∧ i.next m now = (m, .tau i') := by
  induction i with
  | body b =>
      obtain ⟨b', rfl⟩ := hi
      cases htop
  | within c k ih =>
      cases c with
      | body b =>
          obtain rfl : b = .leave v := htop
          exact ⟨_, .here _ k, rfl⟩
      | within c' k' =>
          obtain ⟨i', hr, hn⟩ := ih htop trivial
          refine ⟨.within i' k, .within k hr, ?_⟩
          rw [Inlined.next, hn]
          rfl

/-- An operation that throws throws in its caller. -/
theorem Inlined.next_throws {i : Inlined C.sub} {op : M.Op} (htop : i.top = .enter op)
    (hi : i.Based) {m : M.Data × C.Memory} (hcan : M.can op m.1 = true) {e : Exn E}
    (hp : (M.perform op m.1).1 = .error e) (now : Int) :
    ∃ i', i.next m now = (((M.perform op m.1).2, m.2), .tau i') := by
  induction i with
  | body b =>
      obtain ⟨b', rfl⟩ := hi
      cases htop
  | within c k ih =>
      cases c with
      | body b =>
          obtain rfl : b = .enter op := htop
          refine ⟨.body (k (.error e)), ?_⟩
          simp [Inlined.next, Client.next', Client.enter, hcan, hp, Action.map]
      | within c' k' =>
          obtain ⟨i', hn⟩ := ih htop trivial
          refine ⟨.within i' k, ?_⟩
          rw [Inlined.next, hn]
          rfl

theorem Inlined.ReturnsTo.user {r : Result V E} {i i' : Inlined C.sub} (h : i.ReturnsTo r i')
    (hi : i.Called) : i'.Called ∧ ∃ b, i'.top = .user b := by
  induction h with
  | here b k => exact ⟨trivial, hi.2 r⟩
  | within k h ih => exact ⟨⟨(ih hi.1).1, hi.2⟩, (ih hi.1).2⟩

/-- A user body does not go on at the end of an operation. -/
theorem Inlined.next_user {i : Inlined C.sub} {b : C.Body} (htop : i.top = .user b)
    (hi : i.Called) (m : M.Data × C.Memory) (now : Int) :
    (i.next m now).2.All fun i' => ∀ v, i'.top ≠ .leave v := by
  induction i with
  | body b' =>
      obtain rfl : b' = .user b := htop
      cases hact : (C.next b m.1 m.2 now).2 with
      | call g k => simp [Inlined.next, Client.next', hact, Action.All, Inlined.top]
      | operate op k => simp [Inlined.next, Client.next', hact, Action.All, Inlined.top]
      | act a =>
          cases a <;>
            simp [Inlined.next, Client.next', hact, Action.map, Action.All, Inlined.top]
  | within c k ih =>
      have ih := ih htop hi.1
      have hk : ∀ r v, (Inlined.body (k r) : Inlined C.sub).top ≠ .leave v := by
        intro r v
        obtain ⟨b', hb'⟩ := hi.2 r
        simp [Inlined.top, hb']
      rw [Inlined.next]
      cases hact : (c.next m now).2 with
      | coReturn | throw => exact hk _
      | tau | await | create | declare | move | bind => rw [hact] at ih; exact ih

theorem Inlined.next_called {i : Inlined C.sub} (hi : i.Called) (m : M.Data × C.Memory)
    (now : Int) : (i.next m now).2.All Inlined.Called := by
  induction i with
  | body b =>
      have hbody : ∀ a : Action C.User C.Stage V E,
          (a.map (Inlined.body (S := C.sub))).All Inlined.Called := by
        intro a
        cases a <;> simp [Action.map, Action.All, Inlined.Called]
      cases b with
      | enter op =>
          cases hcan : M.can op m.1 <;>
            simp [Inlined.next, Client.next', Client.enter, hcan, hbody]
      | leave v => exact trivial
      | user b =>
          cases hact : (C.next b m.1 m.2 now).2 with
          | act a =>
              simp only [Inlined.next, Client.next', hact]
              exact hbody _
          | call g k | operate op k =>
              simp [Inlined.next, Client.next', hact, Action.All, Inlined.Called]
  | within c k ih =>
      have ih := ih hi.1
      rw [Inlined.next]
      cases hact : (c.next m now).2 with
      | coReturn | throw => exact trivial
      | tau => rw [hact] at ih; exact ⟨ih, hi.2⟩
      | await | create | declare | move | bind => rw [hact] at ih; exact fun r => ⟨ih r, hi.2⟩

theorem Inlined.next_based {i : Inlined C.sub} (hi : i.Called) (hb : i.Based)
    (m : M.Data × C.Memory) (now : Int) : (i.next m now).2.All Inlined.Based := by
  cases i with
  | body b =>
      obtain ⟨b, rfl⟩ := hb
      cases hact : (C.next b m.1 m.2 now).2 with
      | act a =>
          cases a <;>
            simp [Inlined.next, Client.next', hact, Action.map, Action.All, Inlined.Based]
      | call g k | operate op k =>
          simp [Inlined.next, Client.next', hact, Action.All, Inlined.Based]
  | within c k =>
      rw [Inlined.next]
      cases hact : (c.next m now).2 with
      | coReturn | throw => exact hi.2 _
      | tau => exact trivial
      | await | create | declare | move | bind => exact fun _ => trivial

theorem Action.All.and {U φ V E : Type} {p q : φ → Prop} {a : Action U φ V E} (hp : a.All p)
    (hq : a.All q) : a.All fun f => p f ∧ q f := by
  cases a with
  | tau => exact ⟨hp, hq⟩
  | coReturn | throw => trivial
  | await | create | declare | move | bind => exact fun r => ⟨hp r, hq r⟩

theorem Action.All.imp {U φ V E : Type} {p q : φ → Prop} {a : Action U φ V E} (ha : a.All p)
    (h : ∀ f, p f → q f) : a.All q := by
  cases a with
  | tau => exact h _ ha
  | coReturn | throw => trivial
  | await | create | declare | move | bind => exact fun r => h _ (ha r)

theorem Client.framed_closed (C : Client M) : Frame.Closed C.Framed where
  starts f hf := by
    cases hf with
    | user u => exact ⟨trivial, C.start u, rfl⟩
    | seq as => trivial
  next f m now hf := by
    cases f with
    | user i =>
        have hnext := (Inlined.next_called hf.1 m now).and (Inlined.next_based hf.1 hf.2 m now)
        exact Action.all_map hnext
    | raise e => trivial
    | seq as =>
        cases as with
        | nil => trivial
        | cons a as =>
            cases a with
            | ref o => rintro (⟨_ | _⟩ | _) <;> trivial
            | timeout | wait | wake | coroutine | call | sequential | async | comp =>
                exact fun r => by cases r <;> trivial

/-- A step that performs an operation is an action of the process that is in it. -/
theorem Client.performed_step {K : State C.program → Label C.program → Prop} {d : M.Data}
    {h : List M.Event} {s s' : State (trampoline C.sub)} {l : Label (trampoline C.sub)}
    (hr : C.History K d h s) (hstep : Step s l s') {c : CoroId} {op : M.Op}
    {r : Except (Exn E) (Option V)} (hrec : C.records s l = [.performed c op r]) :
    r = (M.perform op s.memory.1).1 ∧ ∃ i : Inlined C.sub,
      (s.inline.coros c).status = .running (.user i) ∧ i.Based ∧ i.top = .enter op ∧
      M.can op s.memory.1 = true ∧ s.inline.exec c = .ok s'.inline := by
  obtain ⟨m', hr'⟩ := hr.inline
  have hframed : s.inline.Frames C.Framed := Reachable.frames ⟨(d, m'), hr'.runs⟩ C.framed_closed
  obtain ⟨m, hr⟩ := hr
  have hok : s.Frames (Frame.Ok (Machine.evaluation C.sub)) :=
    Reachable.frames ⟨(d, m), hr.runs⟩ (Machine.evaluation C.sub).closed
  rcases Client.step_inline hstep hok with ⟨h1, h2⟩ | ⟨-, h2⟩
  · rw [hrec] at h2
    rcases C.record_cases s.inline l.inline with he | ⟨c', i, hl, hst, ⟨v, -, he⟩ |
        ⟨op', htop, hcan, he⟩⟩ <;>
      rw [he] at h2 <;> cases h2
    rw [hl] at h1
    have hf := hframed c
    rw [hst] at hf
    exact ⟨rfl, i, hst, hf.2, htop, hcan, by cases h1; assumption⟩
  · rw [hrec] at h2
    cases h2

/-! ### The value of an operation -/

/-- Every return follows on an operation of the same process and has its value. -/
def Monitor.Answered (M : Monitor V E) (h : List M.Event) : Prop :=
  ∀ h1 c v h2, h = h1 ++ .returned c v :: h2 →
    ∃ op, M.last c h1 = some (.performed c op (.ok v))

theorem Monitor.Answered.append {h : List M.Event} (hh : M.Answered h) {ev : M.Event}
    (hev : ∀ c v, ev = .returned c v → ∃ op, M.last c h = some (.performed c op (.ok v))) :
    M.Answered (h ++ [ev]) := by
  intro h1 c v h2 heq
  rcases List.eq_nil_or_concat h2 with rfl | ⟨h3, ev', rfl⟩
  · obtain ⟨rfl, he⟩ := List.append_inj' heq rfl
    exact hev c v (List.cons.inj he).1
  · have heq : h ++ [ev] = (h1 ++ .returned c v :: h3) ++ [ev'] := by rw [heq]; simp
    exact hh h1 c v h3 (List.append_inj' heq rfl).1

/-- A body at the end of an operation is the one that has performed it last. -/
def Client.Returning (C : Client M) (h : List M.Event) (c : CoroId) : C.program.Frame → Prop
  | .user i => ∀ v, i.top = .leave v → ∃ op, M.last c h = some (.performed c op (.ok v))
  | _ => True

theorem Inlined.put_top {S : SubProgram} (b : S.Body) (i : Inlined S) : (i.put b).top = b := by
  induction i with
  | body _ => rfl
  | within c k ih => exact ih

/-- What a body does next, after what it has done. -/
theorem Client.next_returning (C : Client M) {s : State C.program} {c : CoroId}
    {f : C.program.Frame} (hst : (s.coros c).status = .running f) (hf : C.Framed f)
    (h : List M.Event) :
    (s.next f).All (C.Returning (h ++ C.record s (.exec c)) c) := by
  cases f with
  | raise e => trivial
  | seq as =>
      cases as with
      | nil => trivial
      | cons a as =>
          cases a with
          | ref o => rintro (⟨_ | _⟩ | _) <;> trivial
          | timeout | wait | wake | coroutine | call | sequential | async | comp =>
              exact fun r => by cases r <;> trivial
  | user i =>
      have hgoal : (Inlined.next (S := C.sub) i s.memory s.now).2.All fun i' => ∀ v,
          i'.top = .leave v → ∃ op, M.last c (h ++ C.occurs c s.memory.1 (Inlined.top i)) =
            some (.performed c op (.ok v)) := by
        have huser : ∀ {r i'}, (show Inlined C.sub from i).ReturnsTo r i' →
            ∀ v, i'.top ≠ .leave v := by
          intro r i' hr v
          obtain ⟨b, hb⟩ := (hr.user hf.1).2
          simp [hb]
        cases htop : Inlined.top (S := C.sub) i with
        | user b =>
            refine (Inlined.next_user htop hf.1 s.memory s.now).imp fun i' hi' v hv => ?_
            exact absurd hv (hi' v)
        | leave v =>
            obtain ⟨i', hr, hn⟩ := Inlined.next_leave htop hf.2 s.memory s.now
            rw [hn]
            exact fun v' hv' => absurd hv' (huser hr v')
        | enter op =>
            cases hcan : M.can op s.memory.1 with
            | false =>
                rw [Inlined.next_wait htop hcan]
                intro r v hv
                rw [htop] at hv
                cases hv
            | true =>
                refine (Inlined.next_enter htop s.memory s.now).imp ?_
                rintro i' (rfl | ⟨v, hp, rfl⟩ | hr) v' hv'
                · rw [htop] at hv'; cases hv'
                · rw [Inlined.put_top] at hv'
                  cases hv'
                  refine ⟨op, ?_⟩
                  simp only [Client.occurs, hcan, if_true, hp]
                  exact Monitor.last_append_self h rfl
                · exact absurd hv' (huser hr v')
      rw [Client.record_user hst]
      exact Action.all_map (p := C.Returning _ c) hgoal

/-- An operation returns its own result. -/
theorem Client.History.answered {K : State C.program → Label C.program → Prop} {d : M.Data}
    {h : List M.Event} {s : State (trampoline C.sub)} (hr : C.History K d h s) :
    M.Answered h := by
  obtain ⟨m, hr⟩ := hr.inline
  have hall : M.Answered h ∧ ∀ c, (s.inline.coros c).status.All (C.Returning h c) := by
    refine hr.invariant (I := fun h (s : State C.program) =>
      M.Answered h ∧ ∀ c, (s.coros c).status.All (C.Returning h c)) ?_ ?_
    · intro h s l s' hruns ih hK hstep
      have hreach : Reachable K s := ⟨(d, m), hruns⟩
      have htidy : s.Tidy False := hreach.tidy (fun hf => hf.elim)
      have hframed : s.Frames C.Framed := hreach.frames C.framed_closed
      refine ⟨?_, fun c => ?_⟩
      · -- only a body at the end of an operation returns
        rcases C.record_cases s l with he | ⟨c, i, rfl, hst, ⟨v, htop, he⟩ | ⟨op, -, -, he⟩⟩
        · rw [he, List.append_nil]
          exact ih.1
        · rw [he]
          have hc := ih.2 c
          rw [hst] at hc
          refine ih.1.append fun c' v' hev => ?_
          cases hev
          exact hc v htop
        · rw [he]
          exact ih.1.append fun c' v' hev => by cases hev
      · by_cases hl : l = .exec c
        · subst hl
          have hex : s.exec c = .ok s' := by cases hstep; assumption
          obtain ⟨f, hst, hact⟩ := exec_acted hex
          have hf := hframed c
          rw [hst] at hf
          exact hact.status_self ⟨htidy.fresh, htidy.object⟩ (C.next_returning hst hf h)
        · have hlast : M.last c (h ++ C.record s l) = M.last c h :=
            Monitor.last_append_other h (Client.record_process hl)
          have hsame : C.Returning (h ++ C.record s l) c = C.Returning h c := by
            funext f
            cases f with
            | user i => simp only [Client.Returning, hlast]
            | seq | raise => rfl
          rw [hsame]
          refine (hstep.status htidy c).all (fun f hf => ?_) (ih.2 c)
            fun f he => absurd he hl
          cases hf with
          | user u => exact fun v hv => by cases hv
          | seq as => trivial
    · exact ⟨fun h1 c v h2 he => by simp at he, fun c => trivial⟩
  exact hall.1

/-- An operation of a running body is tested again or goes on to its end in the same call,
and returns its value or its exception to the body that has called it. -/
structure Client.Calls (C : Client M) (s : State C.program) : Prop where
  stays : ∀ c, ∀ i : Inlined C.sub, ∀ op, (s.coros c).status = .running (.user i) →
    i.top = .enter op → (i.next s.memory s.now).2.All fun i' => i' = i ∨
      (∃ v, (M.perform op s.memory.1).1 = .ok v ∧ i' = i.put (Client.Stage.leave v)) ∨
      i.ReturnsTo ((M.perform op s.memory.1).1.map .ofReturn) i'
  returns : ∀ c, ∀ i : Inlined C.sub, ∀ v, (s.coros c).status = .running (.user i) →
    i.top = .leave v → ∃ i', i.ReturnsTo (.ok (.ofReturn v)) i' ∧
      i.next s.memory s.now = (s.memory, .tau i')

theorem Client.History.calls {K : State C.program → Label C.program → Prop} {d : M.Data}
    {h : List M.Event} {s : State (trampoline C.sub)} (hr : C.History K d h s) :
    C.Calls s.inline := by
  obtain ⟨m, hr⟩ := hr.inline
  have hframed : s.inline.Frames C.Framed :=
    Reachable.frames ⟨(d, m), hr.runs⟩ C.framed_closed
  refine ⟨fun c i op hst htop => Inlined.next_enter htop _ _, fun c i v hst htop => ?_⟩
  have hf := hframed c
  rw [hst] at hf
  exact Inlined.next_leave htop hf.2 _ _

/-! ### Replayed histories -/

/-- The owner of the environment binds calls only, and does not call `step()` while a body runs. -/
def State.calm (s : State (trampoline C.sub)) : Label (trampoline C.sub) → Bool
  | .bind (.call _ _) => true
  | .step _ => s.current.isNone
  | .exec _ => true
  | _ => false

theorem Client.private_of_calm (s : State (trampoline C.sub)) (l : Label (trampoline C.sub))
    (h : s.calm l = true) : C.Private s.inline l.inline := by
  cases l with
  | bind a => cases a <;> trivial
  | step t => exact Option.isNone_iff_eq_none.mp h
  | call | elsewhere | advance | exec | reset => trivial

/-- The history and the state after those of the transitions `ls` that are allowed. -/
def Client.follow (C : Client M) (h : List M.Event) (s : State (trampoline C.sub)) :
    List (Label (trampoline C.sub)) → List M.Event × State (trampoline C.sub)
  | [] => (h, s)
  | l :: ls =>
    match s.calm l, s.move l with
    | true, some s' => C.follow (h ++ C.records s l) s' ls
    | _, _ => C.follow h s ls

theorem Client.recorded_follow {K : State C.program → Label C.program → Prop}
    (hK : ∀ (s : State (trampoline C.sub)) l, s.calm l = true → K s.inline l.inline)
    {m : M.Data × C.Memory} {h : List M.Event} {s : State (trampoline C.sub)}
    (hr : Transition.Recorded Step (fun s l => K s.inline l.inline) C.records (State.init m) h s)
    (ls : List (Label (trampoline C.sub))) :
    Transition.Recorded Step (fun s l => K s.inline l.inline) C.records (State.init m)
      (C.follow h s ls).1 (C.follow h s ls).2 := by
  induction ls generalizing h s with
  | nil => exact hr
  | cons l ls ih =>
      unfold Client.follow
      split
      · next s' hcalm hmove => exact ih (hr.tail (hK s l hcalm) (State.move_step hmove))
      · exact ih hr

theorem Client.follow_history (C : Client M) {K : State C.program → Label C.program → Prop}
    (hK : ∀ (s : State (trampoline C.sub)) l, s.calm l = true → K s.inline l.inline) (d : M.Data)
    (m : C.Memory) (ls : List (Label (trampoline C.sub))) :
    C.History K d (C.follow [] (State.init (d, m)) ls).1 (C.follow [] (State.init (d, m)) ls).2 :=
  ⟨m, C.recorded_follow hK .refl ls⟩

end Cxxdes
