-- SUMMARY: The free units of a resource and those acquired and not released are always its count, and releasing a unit never waits.
import Cxxdes.Sync.Resource
import Cxxdes.Sync.Semaphore

/-!
# Conservation of units

A unit is free in the semaphore, or a handle has it, or it is on its way between the two
in a running `acquire()` or `release()`. So `release()` of a valid handle finds the
semaphore below its maximum.
-/

namespace Cxxdes

namespace Resource

/-! ### Handle objects -/

namespace Handles

variable (d : Handles)

theorem units_construct (x : Bool) :
    (d.construct x).units = d.units + if x then 1 else 0 := by
  unfold units construct
  cases x <;> simp [Nat.add_right_comm]

theorem lt_of_isValid {h : Nat} (hv : d.isValid h = true) :
    ∃ hlt : h < d.valid.length, d.valid[h] = true := by
  unfold isValid at hv
  rw [List.getD_eq_getElem?_getD] at hv
  cases hget : d.valid[h]? with
  | none => simp [hget] at hv
  | some x =>
      obtain ⟨hlt, hx⟩ := List.getElem?_eq_some_iff.mp hget
      rw [hget] at hv
      exact ⟨hlt, hx.trans hv⟩

theorem units_clear {h : Nat} (hv : d.isValid h = true) :
    (d.clear h).units + 1 = d.units := by
  obtain ⟨hlt, hx⟩ := d.lt_of_isValid hv
  have hmem : true ∈ d.valid := hx ▸ List.getElem_mem hlt
  have hpos : 0 < d.valid.count true := List.count_pos_iff.mpr hmem
  have hcount : (d.valid.set h false).count true = d.valid.count true - 1 := by
    rw [List.count_set hlt]
    simp [hx]
  unfold units clear
  simp only [hcount]
  omega

theorem units_swap (h h' : Nat) : (d.swap h h').units = d.units := by
  unfold swap
  split
  · next x x' hx hx' =>
      obtain ⟨hlt, rfl⟩ := List.getElem?_eq_some_iff.mp hx
      obtain ⟨hlt', rfl⟩ := List.getElem?_eq_some_iff.mp hx'
      have hperm : ((d.valid.set h d.valid[h']).set h' d.valid[h]).Perm d.valid :=
        List.set_set_perm hlt hlt'
      unfold units
      rw [hperm.count_eq]
  · rfl

theorem units_move (h : Nat) : (d.move h).units = d.units := by
  unfold move
  rw [units_swap, units_construct]
  rfl

theorem units_destroy (h : Nat) : (d.destroy h).units = d.units := by
  cases hv : d.isValid h with
  | true =>
      have hclear := d.units_clear hv
      unfold units clear at hclear
      simp only [units, destroy, hv, if_true]
      omega
  | false =>
      have hset : d.valid.set h false = d.valid := by
        rcases Nat.lt_or_ge h d.valid.length with hlt | hge
        · have hx : d.valid[h] = false := by
            unfold isValid at hv
            rwa [List.getD_eq_getElem?_getD, List.getElem?_eq_getElem hlt] at hv
          conv_rhs => rw [← List.set_getElem_self hlt, hx]
        · exact List.set_eq_of_length_le hge
      simp [units, destroy, hv, hset]

end Handles

/-! ### The unit on its way -/

variable {V E : Type} {R : Holder V E}

/-- The evaluation of a body has `n` units that are neither free nor held by a handle. -/
inductive Carries : Inlined R.client.sub → Nat → Prop where
  | user (b : R.Body) : Carries (.body (.user (.user b))) 0
  | acquire : Carries (.body (.user .acquire)) 0
  | down : Carries (.within (.body (.enter Semaphore.Op.down)) fun r => .user (.acquired r)) 0
  | taken : Carries (.within (.body (.leave none)) fun r => .user (.acquired r)) 1
  | acquired (v : Val V) : Carries (.body (.user (.acquired (.ok v)))) 1
  | release (h : Nat) : Carries (.body (.user (.release h))) 0
  | up : Carries (.within (.body (.enter Semaphore.Op.up)) fun r => .user (.released r)) 1
  | back : Carries (.within (.body (.leave none)) fun r => .user (.released r)) 0
  | released (v : Val V) : Carries (.body (.user (.released (.ok v)))) 0
  | within {c : Inlined R.client.sub} {n : Nat} (h : Carries c n)
      (k : Result V E → R.Body) : Carries (.within c fun r => .user (.user (k r))) n

/-- The free units, the units of handles and `n` units on their way are all the units. -/
def Balance (d : Semaphore 64) (handles : Handles) (n : Nat) : Prop :=
  d.value.toNat + handles.units + n = d.max.toNat

theorem Balance.congr {d : Semaphore 64} {handles handles' : Handles} {n : Nat}
    (h : Balance d handles n) (hu : handles'.units = handles.units) : Balance d handles' n := by
  unfold Balance
  rw [hu]
  exact h

/-- A body that has a unit on its way goes on at once. -/
def Prompt (event : EventId) {U φ : Type} (n : Nat) (a : Cxxdes.Action U φ V E) : Prop :=
  (∃ f, a = .tau f) ∨ (∃ k, a = .await (.wake event) k) ∨ n = 0

/-- What one action of a body with `n` units on their way leaves, when `r` are the memory
and the action: the same total, and as many units on their way in what follows. -/
def Conserves (R : Holder V E) (count : BitVec 64)
    (r : (Semaphore 64 × Handles × R.Memory) ×
      Cxxdes.Action R.User (Inlined R.client.sub) V E) : Prop :=
  ∃ n, r.1.1.max = count ∧ Balance r.1.1 r.1.2.1 n ∧ (r.2.All fun i => Carries i n) ∧
    Prompt R.event n r.2

theorem Conserves.user {count : BitVec 64} {b : R.Body} {d : Semaphore 64} {handles : Handles}
    {mem : R.Memory} (hmax : d.max = count) (hb : Balance d handles 0) (now : Int) :
    Conserves R count ((Inlined.body (S := R.client.sub) (.user (.user b))).next
      (d, handles, mem) now) := by
  have hnext : ∀ x, R.run b handles mem now = x →
      (Inlined.body (S := R.client.sub) (.user (.user b))).next (d, handles, mem) now =
        ((d, x.1), match x.2 with
          | .act a => (a.map Client.Stage.user).map Inlined.body
          | .call g k => .tau (.within (.body (.user g)) fun r => .user (k r))
          | .operate op k => .tau (.within (.body (.enter op)) fun r => .user (k r))) := by
    rintro x rfl
    simp only [Inlined.next, Client.next', Holder.next']
    cases (R.run b handles mem now).2 <;> rfl
  refine ⟨0, ?_⟩
  cases hact : (R.next b handles mem now).2 with
  | act a =>
      rw [hnext _ (by simp only [Holder.run, hact]; rfl)]
      refine ⟨hmax, hb, ?_, .inr (.inr rfl)⟩
      cases a with
      | tau => exact .user _
      | coReturn | throw => trivial
      | await | create | declare | move | bind => exact fun _ => .user _
  | call g k =>
      rw [hnext _ (by simp only [Holder.run, hact]; rfl)]
      exact ⟨hmax, hb, .within (.user g) k, .inr (.inr rfl)⟩
  | acquire k =>
      rw [hnext _ (by simp only [Holder.run, hact]; rfl)]
      exact ⟨hmax, hb, .within .acquire k, .inr (.inr rfl)⟩
  | release h k =>
      rw [hnext _ (by simp only [Holder.run, hact]; rfl)]
      exact ⟨hmax, hb, .within (.release h) k, .inr (.inr rfl)⟩
  | construct k =>
      rw [hnext _ (by simp only [Holder.run, hact]; rfl)]
      refine ⟨hmax, ?_, .user _, .inr (.inr rfl)⟩
      exact hb.congr (handles.units_construct false)
  | move h k =>
      rw [hnext _ (by simp only [Holder.run, hact]; rfl)]
      exact ⟨hmax, hb.congr (handles.units_move h), .user _, .inr (.inr rfl)⟩
  | assign h h' b =>
      rw [hnext _ (by simp only [Holder.run, hact]; rfl)]
      exact ⟨hmax, hb.congr (handles.units_swap h h'), .user _, .inr (.inr rfl)⟩
  | destroy h b =>
      rw [hnext _ (by simp only [Holder.run, hact]; rfl)]
      exact ⟨hmax, hb.congr (handles.units_destroy h), .user _, .inr (.inr rfl)⟩

/-- Every action of a body keeps the units together. -/
theorem Carries.next {count : BitVec 64} {i : Inlined R.client.sub} {n : Nat} (h : Carries i n)
    {d : Semaphore 64} {handles : Handles} {mem : R.Memory} (hmax : d.max = count)
    (hb : Balance d handles n) (now : Int) :
    Conserves R count (i.next (d, handles, mem) now) := by
  induction h with
  | user b => exact .user hmax hb now
  | acquire => exact ⟨0, hmax, hb, .down, .inr (.inr rfl)⟩
  | taken => exact ⟨1, hmax, hb, .acquired .unit, .inl ⟨_, rfl⟩⟩
  | back => exact ⟨0, hmax, hb, .released .unit, .inr (.inr rfl)⟩
  | released v => exact ⟨0, hmax, hb, trivial, .inr (.inr rfl)⟩
  | acquired v =>
      refine ⟨0, hmax, ?_, trivial, .inr (.inr rfl)⟩
      have hu := handles.units_construct true
      unfold Balance at hb ⊢
      change d.value.toNat + (handles.construct true).units + 0 = _
      rw [hu]
      exact hb
  | release h =>
      cases hv : handles.isValid h with
      | false =>
          have hnext : (Inlined.body (S := R.client.sub) (.user (.release h))).next
              (d, handles, mem) now = ((d, handles, mem),
                .throw (.runtimeError "called release() on invalid resource handle")) := by
            simp [Inlined.next, Client.next', Holder.next', hv, Cxxdes.Action.map]
            rfl
          rw [hnext]
          exact ⟨0, hmax, hb, trivial, .inr (.inr rfl)⟩
      | true =>
          have hnext : (Inlined.body (S := R.client.sub) (.user (.release h))).next
              (d, handles, mem) now = ((d, handles.clear h, mem),
                .tau (.within (.body (.enter Semaphore.Op.up)) fun r => .user (.released r))) := by
            simp [Inlined.next, Client.next', Holder.next', hv]
            rfl
          rw [hnext]
          refine ⟨1, hmax, ?_, .up, .inl ⟨_, rfl⟩⟩
          have hu := handles.units_clear hv
          unfold Balance at hb ⊢
          change d.value.toNat + (handles.clear h).units + 1 = d.max.toNat
          omega
  | down =>
      cases hcan : (semaphore V E 64).can Semaphore.Op.down d with
      | false =>
          rw [Inlined.next_wait rfl hcan]
          exact ⟨0, hmax, hb, fun _ => .down, .inr (.inr rfl)⟩
      | true =>
          have hn := Inlined.within_enter (C := R.client) (k := fun r => .user (.acquired r))
            (m := (d, handles, mem)) hcan rfl rfl now
          refine (congrArg (Conserves R count) hn).mpr ?_
          refine ⟨1, hmax, ?_, fun _ => .taken, .inr (.inl ⟨_, rfl⟩)⟩
          have hdown := Semaphore.down_toNat (d := d) (by simpa [semaphore] using hcan)
          unfold Balance at hb ⊢
          change (d.value - 1).toNat + handles.units + 1 = d.max.toNat
          omega
  | up =>
      -- the unit on its way is one that is not free
      have hlt : d.value < d.max := by
        unfold Balance at hb
        exact BitVec.lt_def.mpr (by omega)
      have hcan : (semaphore V E 64).can Semaphore.Op.up d = true := by simpa [semaphore] using hlt
      have hn := Inlined.within_enter (C := R.client) (k := fun r => .user (.released r))
        (m := (d, handles, mem)) hcan rfl rfl now
      refine (congrArg (Conserves R count) hn).mpr ?_
      refine ⟨0, hmax, ?_, fun _ => .back, .inr (.inr rfl)⟩
      have hup := Semaphore.up_toNat hlt
      unfold Balance at hb ⊢
      change (d.value + 1).toNat + handles.units + 0 = d.max.toNat
      omega
  | @within c n h k ih =>
      obtain ⟨n', hmax', hb', hall, hprompt⟩ := ih hb
      rw [Inlined.next]
      cases hact : (c.next (d, handles, mem) now).2 with
      | tau i' =>
          rw [hact] at hall
          exact ⟨n', hmax', hb', .within hall k, .inl ⟨_, rfl⟩⟩
      | await a k' =>
          rw [hact] at hall hprompt
          refine ⟨n', hmax', hb', fun r => .within (hall r) k, ?_⟩
          rcases hprompt with ⟨f, hf⟩ | ⟨k1, hk1⟩ | h0
          · cases hf
          · cases hk1
            exact .inr (.inl ⟨_, rfl⟩)
          · exact .inr (.inr h0)
      | coReturn | throw | create | declare | move | bind =>
          -- none of these has a unit on its way
          rw [hact] at hall hprompt
          obtain rfl : n' = 0 := by
            rcases hprompt with ⟨f, hf⟩ | ⟨k1, hk1⟩ | h0
            · cases hf
            · cases hk1
            · exact h0
          first
          | exact ⟨0, hmax', hb', .user _, .inl ⟨_, rfl⟩⟩
          | exact ⟨0, hmax', hb', fun r => .within (hall r) k, .inr (.inr rfl)⟩

/-! ### Environments -/

/-- `Carries` for coroutine frames. -/
def FrameCarries (R : Holder V E) (n : Nat) : R.client.program.Frame → Prop
  | .user i => Carries i n
  | _ => n = 0

theorem frameCarries_starts {f : R.client.program.Frame} (hf : f.Starts) :
    FrameCarries R 0 f := by
  cases hf with
  | user u => exact .user _
  | seq as => exact rfl

/-- Only a body that runs has a unit on its way. -/
def StatusCarries (R : Holder V E) (n : Nat) : Status R.client.program → Prop
  | .running f => FrameCarries R n f
  | st => st.All (FrameCarries R 0)

theorem StatusCarries.of_all {st : Status R.client.program} (h : st.All (FrameCarries R 0)) :
    StatusCarries R 0 st := by
  cases st <;> exact h

theorem StatusCarries.all {st : Status R.client.program} (h : StatusCarries R 0 st) :
    st.All (FrameCarries R 0) := by
  cases st <;> exact h

theorem StatusCarries.idle {n n' : Nat} {st : Status R.client.program} (h : StatusCarries R n st)
    (hst : ∀ f, st ≠ .running f) : StatusCarries R n' st := by
  cases st with
  | running f => exact absurd rfl (hst f)
  | initial | suspended | finished => exact h

/-- The units of a resource made with `count`, `n` of them on their way. -/
structure Balanced (count : BitVec 64) (s : State R.client.program) (n : Nat) : Prop where
  max : s.memory.1.max = count
  balance : Balance s.memory.1 s.memory.2.1 n
  procs : ∀ c, StatusCarries R n (s.coros c).status
  running : n ≠ 0 → ∃ c f, (s.coros c).status = .running f

namespace Balanced

variable {count : BitVec 64} {s s' : State R.client.program} {n : Nat}

theorem init (count : BitVec 64) (mem : R.Memory) :
    Balanced (R := R) count (State.init (⟨count, count⟩, ({}, mem))) 0 where
  max := rfl
  balance := rfl
  procs _ := trivial
  running h := absurd rfl h

/-- No body runs. -/
theorem rest (h : Balanced count s n) (hidle : ∀ c f, (s.coros c).status ≠ .running f) : n = 0 := by
  by_contra hn
  obtain ⟨c, f, hst⟩ := h.running hn
  exact hidle c f hst

/-- Coroutine functions are called, while no body takes a step. -/
theorem called (h : Balanced count s n) (hmem : s'.memory = s.memory)
    (hst : ∀ c, (s'.coros c).status = (s.coros c).status ∨
      ∃ f, f.Starts ∧ (s'.coros c).status = .initial f)
    (hrun : ∀ c f, (s.coros c).status = .running f → (s'.coros c).status = .running f) :
    Balanced count s' n where
  max := by rw [hmem]; exact h.max
  balance := by rw [hmem]; exact h.balance
  procs c := by
    rcases hst c with h1 | ⟨f, hf, h1⟩
    · rw [h1]; exact h.procs c
    · rw [h1]; exact frameCarries_starts hf
  running hn := by
    obtain ⟨c, f, hc⟩ := h.running hn
    exact ⟨c, f, hrun c f hc⟩

/-- Processes are resumed or destroyed, while no body runs. -/
theorem moved {l : Label R.client.program} (h : Balanced count s 0)
    (hmem : s'.memory = s.memory) (hl : ∀ c, l ≠ .exec c)
    (hst : ∀ c, Status.Next s l c (s'.coros c).status) : Balanced count s' 0 where
  max := by rw [hmem]; exact h.max
  balance := by rw [hmem]; exact h.balance
  procs c := .of_all ((hst c).all (fun _ hf => frameCarries_starts hf) (h.procs c).all
    fun _ he => absurd he (hl c))
  running hn := absurd rfl hn

/-- What an action of a body leaves. -/
theorem next (h : Balanced count s n) {c : CoroId} {f : R.client.program.Frame}
    (hst : (s.coros c).status = .running f) :
    ∃ n', (f.next s.memory s.now).1.1.max = count ∧
      Balance (f.next s.memory s.now).1.1 (f.next s.memory s.now).1.2.1 n' ∧
      (s.next f).All (FrameCarries R n') ∧ Prompt R.event n' (s.next f) := by
  have hf := h.procs c
  rw [hst] at hf
  cases f with
  | raise e =>
      obtain rfl : n = 0 := hf
      exact ⟨0, h.max, h.balance, trivial, .inr (.inr rfl)⟩
  | seq as =>
      obtain rfl : n = 0 := hf
      cases as with
      | nil => exact ⟨0, h.max, h.balance, trivial, .inr (.inr rfl)⟩
      | cons a as =>
          cases a with
          | ref o =>
              refine ⟨0, h.max, h.balance, ?_, .inr (.inr rfl)⟩
              rintro (⟨_ | _⟩ | _) <;> exact rfl
          | timeout | wait | wake | coroutine | call | sequential | async | comp =>
              refine ⟨0, h.max, h.balance, fun r => ?_, .inr (.inr rfl)⟩
              cases r <;> exact rfl
  | user i =>
      obtain ⟨n', hmax, hb, hall, hprompt⟩ := Carries.next hf h.max h.balance s.now
      refine ⟨n', hmax, hb, Action.all_map hall, ?_⟩
      change Prompt R.event n' ((Inlined.next i s.memory s.now).2.map Frame.user)
      rcases hprompt with ⟨i', hi'⟩ | ⟨k, hk⟩ | h0
      · rw [hi']; exact .inl ⟨_, rfl⟩
      · rw [hk]; exact .inr (.inl ⟨_, rfl⟩)
      · exact .inr (.inr h0)

theorem exec (h : Balanced count s n) (hs : s.Tidy False) (hsole : s.Sole) {c : CoroId}
    (hex : s.exec c = .ok s') : ∃ n', Balanced count s' n' := by
  obtain ⟨f, hst, hact⟩ := exec_acted hex
  obtain ⟨n', hmax, hb, hall, hprompt⟩ := h.next hst
  have htidy : (s.ran f).Tidy False := ⟨hs.fresh, hs.object⟩
  have hmem : s'.memory = (f.next s.memory s.now).1 := hact.memory htidy
  have hself : (s'.coros c).status.All (FrameCarries R n') := hact.status_self htidy hall
  have hgoes : n' = 0 ∨ ∃ g, (s'.coros c).status = .running g := by
    rcases hprompt with ⟨g, hg⟩ | ⟨k, hk⟩ | h0
    · rw [hg] at hact
      cases hact
      exact .inr ⟨g, by simp [State.setStatus, State.setCoro]⟩
    · rw [hk] at hact
      cases hact
      refine .inr ⟨k (.ok .unit), ?_⟩
      change ((State.deliver _ c none k (.ok .unit)).coros c).status = _
      simp [State.deliver, State.log, State.setStatus, State.setCoro]
    · exact .inl h0
  refine ⟨n', by rw [hmem]; exact hmax, by rw [hmem]; exact hb, fun c' => ?_, fun hn => ?_⟩
  · by_cases hc : c' = c
    · subst hc
      rcases hgoes with rfl | ⟨g, hg⟩
      · exact .of_all hself
      · rw [hg] at hself ⊢
        exact hself
    · rcases hact.status_other htidy hc with h1 | ⟨g, hg, h1⟩
      · rw [h1]
        refine (h.procs c').idle fun g hg => hc ?_
        exact hsole.only hst hg
      · rw [h1]
        exact frameCarries_starts hg
  · obtain ⟨g, hg⟩ := hgoes.resolve_left hn
    exact ⟨c, g, hg⟩

end Balanced

theorem step_balanced {count : BitVec 64} {s s' : State R.client.program} {n : Nat}
    {l : Label R.client.program} (hstep : Step s l s') (hl : R.client.Private s l)
    (hs : s.Tidy False) (hsole : s.Sole) (h : Balanced count s n) :
    ∃ n', Balanced count s' n' := by
  have hnext := hstep.status hs
  cases hstep with
  | call f o =>
      have he : Edits none s.nextToken False s (s.newCoro (.user (R.client.program.start f)) o) :=
        .single (.newCoro _ o (.user f) (fun hf => hf.elim))
      exact ⟨n, h.called rfl he.status_cases fun c g hg => he.running hs hg⟩
  | bind a =>
      have he : Edits none s.nextToken False s (s.bind a) :=
        bind_call_edits hs a (fun hf => hf.elim)
      exact ⟨n, h.called he.ext.memory he.status_cases fun c g hg => he.running hs hg⟩
  | elsewhere c henv =>
      have hsame : ∀ c', ((s.setCoro c { s.coros c with env := .elsewhere }).coros c').status =
          (s.coros c').status := by
        intro c'
        by_cases hc : c' = c
        · subst hc; simp [State.setCoro]
        · simp [State.setCoro, Function.update_of_ne hc]
      exact ⟨n, h.called rfl (fun c' => .inl (hsame c')) fun c' g hg => (hsame c').trans hg⟩
  | advance deadline => exact ⟨n, h.called rfl (fun _ => .inl rfl) fun _ _ hg => hg⟩
  | step t _ htop hst =>
      have hcur : s.current = none := hl
      obtain rfl : n = 0 := h.rest fun c f hf => by
        have h1 := hsole c f hf
        rw [hcur] at h1
        cases h1
      exact ⟨0, h.moved (step_stepped hst).memory (fun c hc => by cases hc) hnext⟩
  | reset hcur hrun =>
      obtain rfl : n = 0 := h.rest hrun
      have hmem : s.reset.memory = s.memory := by
        unfold State.reset
        rw [State.destroyAll_eq]
      exact ⟨0, h.moved hmem (fun c hc => by cases hc) hnext⟩
  | exec c _ hex => exact h.exec hs hsole hex

/-! ### Runs -/

/-- The runs of processes that use a new resource with `count` units, with the history of
its semaphore. -/
def Holder.History (R : Holder V E) (count : BitVec 64) (h : List (semaphore V E 64).Event)
    (s : State (trampoline R.client.sub)) : Prop :=
  ∃ mem, Transition.Recorded Step (fun s l => R.client.Private s.inline l.inline)
    R.client.records (State.init (⟨count, count⟩, ({}, mem))) h s

theorem Holder.History.balanced {count : BitVec 64} {h : List (semaphore V E 64).Event}
    {s : State (trampoline R.client.sub)} (hr : R.History count h s) :
    ∃ n, Balanced count s.inline n := by
  obtain ⟨mem, hr⟩ := hr
  have hruns := (R.client.recorded_inline hr).runs
  have hall : (s.inline.Tidy False ∧ s.inline.Sole) ∧ ∃ n, Balanced count s.inline n := by
    refine hruns.invariant (I := fun s => (s.Tidy False ∧ s.Sole) ∧ ∃ n, Balanced count s n) ?_ ?_
    · rintro s l s' ⟨⟨hs, hsole⟩, n, hb⟩ hl hstep
      refine ⟨⟨hstep.tidy (fun hf => hf.elim) hs, hstep.sole hs (fun t ht _ => ?_) hsole⟩,
        step_balanced hstep hl hs hsole hb⟩
      subst ht
      exact hl
    · exact ⟨⟨⟨fun _ _ => rfl, by simp⟩, fun c f hf => by cases hf⟩, 0, Balanced.init count mem⟩
  exact hall.2

/-! ### Conservation -/

theorem Carries.le_one {i : Inlined R.client.sub} {n : Nat} (h : Carries i n) : n ≤ 1 := by
  induction h with
  | within h k ih => exact ih
  | user | acquire | down | taken | acquired | release | up | back | released => decide

theorem Carries.top_up {i : Inlined R.client.sub} {n : Nat} (h : Carries i n)
    (htop : i.top = .enter Semaphore.Op.up) : n = 1 := by
  induction h with
  | within h k ih => exact ih htop
  | up => rfl
  | down => cases htop
  | user | acquire | taken | acquired | release | back | released => cases htop

/-- The evaluation of `handle.release()` for the handle object `h`, called with the callers
`ks`; the nearest goes on with `k`. -/
def releasing (R : Holder V E) (h : Nat) (k : Result V E → R.client.Stage)
    (ks : List (Result V E → R.client.Stage)) : Inlined R.client.sub :=
  .wrap ks (.within (.body (.user (.release h))) k)

section release

variable {s : State R.client.program} {c : CoroId} {h : Nat} {k : Result V E → R.client.Stage}
  {ks : List (Result V E → R.client.Stage)}

/-- A `release()` of an invalid handle throws in its caller, and changes nothing. -/
theorem exec_release_invalid
    (hst : (s.coros c).status = .running (.user (releasing R h k ks)))
    (hv : s.memory.2.1.isValid h = false) :
    s.exec c = .ok (s.setStatus c (.running (.user (.wrap ks (.body (k (.error
      (.runtimeError "called release() on invalid resource handle")))))))) := by
  have hbody : (Inlined.within (S := R.client.sub) (.body (.user (.release h))) k).next
      s.memory s.now = (s.memory, .tau (.body (k (.error
        (.runtimeError "called release() on invalid resource handle"))))) := by
    simp [Inlined.next, Client.next', Holder.next', hv, Cxxdes.Action.map]
  exact Inlined.exec_tau hst (Inlined.wrap_next hbody rfl ks)

/-- A `release()` of a valid handle goes on without a suspension, to its end. -/
theorem exec_release_valid
    (hst : (s.coros c).status = .running (.user (releasing R h k ks)))
    (hv : s.memory.2.1.isValid h = true) (hlt : s.memory.1.value < s.memory.1.max) :
    ∃ s1 s2 s3 s4, s.exec c = .ok s1 ∧ s1.exec c = .ok s2 ∧ s2.exec c = .ok s3 ∧
      s3.exec c = .ok s4 ∧
      (s4.coros c).status = .running (.user (.wrap ks (.body (k (.ok .unit))))) ∧
      s4.memory = ({ s.memory.1 with value := s.memory.1.value + 1 },
        (s.memory.2.1.clear h, s.memory.2.2)) := by
  -- the body of `release()` is called by the first of the callers `k :: ks`
  have h1 : (Inlined.body (S := R.client.sub) (.user (.release h))).next s.memory s.now =
      ((s.memory.1, (s.memory.2.1.clear h, s.memory.2.2)),
        .tau (.within (.body (.enter Semaphore.Op.up)) fun r => .user (.released r))) := by
    simp [Inlined.next, Client.next', Holder.next', hv]
  obtain ⟨s1, hex1, hst1, hm1⟩ := Inlined.exec_wrap_tau (k :: ks) hst h1
  -- `up()` finds the semaphore below its maximum
  have hcan : (semaphore V E 64).can Semaphore.Op.up s1.memory.1 = true := by
    rw [hm1]
    simpa [semaphore] using hlt
  have h2 := Inlined.within_enter (C := R.client) (k := fun r => .user (.released r))
    (m := s1.memory) hcan rfl rfl s1.now
  obtain ⟨s2, hex2, hst2, hm2⟩ := Inlined.exec_wrap_wake (k :: ks) hst1 h2
  have h3 : (Inlined.within (S := R.client.sub) (.body (.leave none)) fun r =>
      .user (.released r)).next s2.memory s2.now =
        (s2.memory, .tau (.body (.user (.released (.ok .unit))))) := rfl
  obtain ⟨s3, hex3, hst3, hm3⟩ := Inlined.exec_wrap_tau (k :: ks) hst2 h3
  have h4 : (Inlined.within (S := R.client.sub) (.body (.user (.released (.ok .unit)))) k).next
      s3.memory s3.now = (s3.memory, .tau (.body (k (.ok .unit)))) := rfl
  obtain ⟨s4, hex4, hst4, hm4⟩ := Inlined.exec_wrap_tau ks hst3 h4
  refine ⟨s1, s2, s3, s4, hex1, hex2, hex3, hex4, hst4, ?_⟩
  rw [hm4, hm3, hm2, hm1]

end release

/-- For every run of processes that use a new resource with `count` units: the free units,
the units of handles and at most one unit that a running `acquire()` or `release()` has
on its way are `count`, and the units taken and not given back are those that are not
free; so at most `count` handles are valid. `up()` in a `release()` finds the semaphore
below its maximum, and the `release()` of a valid handle runs to its end without a
suspension; that of an invalid one throws and changes nothing. -/
theorem resource_conservation {count : BitVec 64} {hist : List (semaphore V E 64).Event}
    {s : State (trampoline R.client.sub)} (hr : R.History count hist s) :
    (∃ n ≤ 1, s.memory.1.value.toNat + s.memory.2.1.units + n = count.toNat ∧
      (n ≠ 0 → ∃ c, ∃ i : Inlined R.client.sub,
        (s.inline.coros c).status = .running (.user i) ∧ Carries i n)) ∧
    (s.memory.1.value.toNat : Int) + (Semaphore.downs hist - Semaphore.ups hist) = count.toNat ∧
    s.memory.2.1.valid.count true ≤ count.toNat ∧
    (∀ c, ∀ i : Inlined R.client.sub, (s.inline.coros c).status = .running (.user i) →
      i.top = .enter Semaphore.Op.up → s.memory.1.value < s.memory.1.max) ∧
    ∀ c h k ks, (s.inline.coros c).status = .running (.user (releasing R h k ks)) →
      (s.memory.2.1.isValid h = true → s.memory.1.value < s.memory.1.max ∧
        ∃ s1 s2 s3 s4, s.inline.exec c = .ok s1 ∧ s1.exec c = .ok s2 ∧ s2.exec c = .ok s3 ∧
          s3.exec c = .ok s4 ∧
          (s4.coros c).status = .running (.user (.wrap ks (.body (k (.ok .unit))))) ∧
          s4.memory = ({ s.memory.1 with value := s.memory.1.value + 1 },
            (s.memory.2.1.clear h, s.memory.2.2))) ∧
      (s.memory.2.1.isValid h = false → s.inline.exec c = .ok (s.inline.setStatus c
        (.running (.user (.wrap ks (.body (k (.error
          (.runtimeError "called release() on invalid resource handle"))))))))) := by
  obtain ⟨n, hb⟩ := hr.balanced
  have hbal : s.memory.1.value.toNat + s.memory.2.1.units + n = s.memory.1.max.toNat := hb.balance
  have hmax : s.memory.1.max = count := hb.max
  have hunits : ∀ d : Handles, d.valid.count true ≤ d.units := fun d => Nat.le_add_right _ _
  refine ⟨?_, ?_, ?_, ?_, ?_⟩
  · have hrun : n ≠ 0 → ∃ c, ∃ i : Inlined R.client.sub,
        (s.inline.coros c).status = .running (.user i) ∧ Carries i n := by
      intro hn
      obtain ⟨c, f, hst⟩ := hb.running hn
      have hf := hb.procs c
      rw [hst] at hf
      cases f with
      | user i => exact ⟨c, i, hst, hf⟩
      | seq | raise => exact absurd hf hn
    refine ⟨n, ?_, by rw [← hmax]; exact hbal, hrun⟩
    by_contra hn
    obtain ⟨c, i, -, hi⟩ := hrun (by omega)
    exact hn hi.le_one
  · have hrep : (semaphore V E 64).Replays (⟨count, count⟩ : Semaphore 64) hist s.memory.1 := by
      obtain ⟨mem, hr⟩ := hr
      exact Client.History.replays (C := R.client) ⟨_, hr⟩
    have hval := (Semaphore.Accounts.replays hrep).value
    omega
  · rw [← hmax]
    have hu := hunits s.memory.2.1
    omega
  · intro c i hst htop
    have hi := hb.procs c
    rw [hst] at hi
    obtain rfl := Carries.top_up hi htop
    exact BitVec.lt_def.mpr (by omega)
  · intro c h k ks hst
    refine ⟨fun hv => ?_, fun hv => exec_release_invalid hst hv⟩
    have hclear := s.memory.2.1.units_clear hv
    have hlt : s.memory.1.value < s.memory.1.max := BitVec.lt_def.mpr (by omega)
    exact ⟨hlt, exec_release_valid hst hv hlt⟩

/-- A holder with processes that acquire a unit and keep it, and processes that acquire one, move
the handle, delay, and release the unit through the old handle, which throws, and the new one. -/
def tenant : Holder Nat Unit where
  User := Bool
  Body := Nat
  Memory := Unit
  event := 0
  handle := id
  start keeps := if keeps then 5 else 0
  next b _ m _ := (m, match b with
    | 0 => .acquire fun _ => 1
    | 1 => .move 0 fun _ => 2
    | 2 => .act (.await (.timeout true 5 PriorityConsts.inherit none) fun _ => 3)
    | 3 => .release 0 fun _ => 4
    | 4 => .release 1 fun _ => 6
    | 5 => .acquire fun _ => 6
    | _ => .act (.coReturn none))
  keepsOut b _ _ _ := by
    match b with
    | 0 | 1 | 2 | 3 | 4 | 5 => trivial
    | _ + 6 => trivial

namespace tenant

/-- Process 1 waits for the only unit while process 0 delays, and acquires it when process 0 has
released it. -/
def done : List (semaphore Nat Unit 64).Event × State (trampoline tenant.client.sub) :=
  tenant.client.follow [] (State.init ((⟨1, 1⟩ : Semaphore 64), ({}, ())))
    ([.bind (.call false {}), .step 0] ++ List.replicate 40 (.exec 0) ++
      [.bind (.call true {}), .step 3] ++ List.replicate 24 (.exec 1) ++ [.step 2] ++
      List.replicate 60 (.exec 0) ++ [.step 5] ++ List.replicate 40 (.exec 1))

theorem done_history : tenant.History 1 done.1 done.2 := by
  unfold done
  exact ⟨_, Client.recorded_follow Client.private_of_calm .refl _⟩

end tenant

theorem resource_conservation_tenant :
    (tenant.done.2.memory.1.value = 0 ∧ tenant.done.2.memory.2.1.valid = [false, false, true]) ∧
      (tenant.done.2.memory.1.value.toNat : Int) +
        (Semaphore.downs tenant.done.1 - Semaphore.ups tenant.done.1) = (1 : BitVec 64).toNat :=
  ⟨by decide +kernel, (resource_conservation tenant.done_history).2.1⟩

end Resource

end Cxxdes
