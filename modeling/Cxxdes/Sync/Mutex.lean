-- SUMMARY: A mutex has one valid handle at most, and it is acquired again only after that handle has been released.
import Cxxdes.Sync.History

/-!
# Mutual exclusion

A valid handle is the only one and means that the mutex is acquired. The handle that an
`acquire()` returns may be moved and swapped; as long as what it holds has not been
released, no other `acquire()` completes.
-/

namespace Cxxdes

variable {V E : Type} {handle : Nat → V}

namespace Mutex

/-- A new mutex. -/
def init : Mutex where
  owned := false
  valid := fun _ => false
  nextHandle := 0

/-! ### Handles -/

/-- No handle object but `x` is valid, and it is only while the mutex is acquired. -/
structure Only (d : Mutex) (x : Nat) : Prop where
  valid : ∀ y, d.valid y = true → y = x
  owned : ∀ y, d.valid y = true → d.owned = true

/-- The handle object that has what `x` had, after an operation on `d`. -/
def carrier (d : Mutex) (x : Nat) : Mutex.Op → Nat
  | .move y => if x = y then d.nextHandle else x
  | .assign y y' => if x = y then y' else if x = y' then y else x
  | _ => x

theorem swap_valid (d : Mutex) (x y z : Nat) :
    (d.swap x y).valid z = d.valid (if z = y then x else if z = x then y else z) := by
  unfold swap
  by_cases hy : z = y
  · subst hy; simp
  · by_cases hx : z = x
    · subst hx; simp [hy]
    · simp [hx, hy]

theorem Only.acquire {d : Mutex} {x : Nat} (h : d.Only x) (hfree : d.owned = false) :
    ({ d.newHandle true with owned := true } : Mutex).Only d.nextHandle where
  valid y hy := by
    by_contra hne
    have hold : d.valid y = true := by simpa [newHandle, Function.update_of_ne hne] using hy
    exact absurd (h.owned y hold) (by simp [hfree])
  owned _ _ := rfl

theorem Only.release {d : Mutex} {x : Nat} (h : d.Only x) {y : Nat} (hy : d.valid y = true) :
    ({ d with valid := Function.update d.valid y false, owned := false } : Mutex).Only x := by
  have hno : ∀ z, Function.update d.valid y false z ≠ true := by
    intro z hz
    by_cases hzy : z = y
    · subst hzy; simp at hz
    · rw [Function.update_of_ne hzy] at hz
      exact hzy ((h.valid z hz).trans (h.valid y hy).symm)
  exact ⟨fun z hz => absurd hz (hno z), fun z hz => absurd hz (hno z)⟩

theorem Only.move {d : Mutex} {x : Nat} (h : d.Only x) (y : Nat) :
    ((d.newHandle false).swap d.nextHandle y).Only (d.carrier x (.move y)) := by
  have hold : ∀ z, (d.newHandle false).valid z = true → z ≠ d.nextHandle ∧ d.valid z = true := by
    intro z hz
    by_cases hzn : z = d.nextHandle
    · subst hzn; simp [newHandle] at hz
    · exact ⟨hzn, by simpa [newHandle, Function.update_of_ne hzn] using hz⟩
  refine ⟨fun z hz => ?_, fun z hz => ?_⟩
  · rw [swap_valid] at hz
    obtain ⟨hne, hz⟩ := hold _ hz
    have hx := h.valid _ hz
    simp only [carrier]
    split at hx
    · next hzy => simp [hzy] at hne
    · split at hx
      · next hzn => simp [hx, hzn]
      · next hzy _ => rw [if_neg (fun hxy => hzy (hx.trans hxy))]; exact hx
  · rw [swap_valid] at hz
    exact h.owned _ (hold _ hz).2

theorem Only.assign {d : Mutex} {x : Nat} (h : d.Only x) (y y' : Nat) :
    (d.swap y y').Only (d.carrier x (.assign y y')) := by
  refine ⟨fun z hz => ?_, fun z hz => ?_⟩
  · rw [swap_valid] at hz
    have hx := h.valid _ hz
    simp only [carrier]
    split at hx
    · next hzy =>
        -- `z` is `y'`, which has what `y` had
        rw [if_pos hx.symm]
        exact hzy
    · next hzy' =>
        split at hx
        · next hzy =>
            by_cases hxy : x = y
            · rw [if_pos hxy]
              exact absurd (hzy.trans (hxy.symm.trans hx.symm)) hzy'
            · rw [if_neg hxy, if_pos hx.symm]
              exact hzy
        · next hzy =>
            rw [if_neg (fun hxy => hzy (hx.trans hxy)), if_neg (fun hxy => hzy' (hx.trans hxy))]
            exact hx
  · rw [swap_valid] at hz
    exact h.owned _ hz

/-- What an operation keeps. -/
theorem Only.perform {d : Mutex} {x : Nat} (h : d.Only x) {op : Mutex.Op}
    (hop : op ≠ .acquire) :
    ((mutex V E handle).perform op d).2.Only (d.carrier x op) := by
  cases op with
  | acquire => exact absurd rfl hop
  | move y => exact h.move y
  | assign y y' => exact h.assign y y'
  | release y =>
      cases hy : d.valid y with
      | true => simpa [mutex, hy, carrier] using h.release hy
      | false => simpa [mutex, hy, carrier] using h
  | destroy y =>
      have hold : ∀ z, Function.update d.valid y false z = true → d.valid z = true := by
        intro z hz
        by_cases hzy : z = y
        · subst hzy; simp at hz
        · rwa [Function.update_of_ne hzy] at hz
      exact ⟨fun z hz => h.valid z (hold z hz), fun z hz => h.owned z (hold z hz)⟩

/-- Only a `release()` of the valid handle frees the mutex. -/
theorem owned_perform (handle : Nat → V) (op : Mutex.Op) {d : Mutex} (h : d.owned = true) :
    ((mutex V E handle).perform op d).2.owned = true ∨
      ∃ x, op = .release x ∧ d.valid x = true ∧ ((mutex V E handle).perform op d).1 = .ok none := by
  cases op with
  | acquire => exact .inl rfl
  | move y | assign y y' | destroy y => exact .inl h
  | release y =>
      cases hy : d.valid y with
      | true => exact .inr ⟨y, rfl, hy, by simp [mutex, hy]⟩
      | false => exact .inl (by simpa [mutex, hy] using h)

/-! ### Histories of a mutex -/

/-- What the handle object `x` of the mutex `d` has is released in the history. -/
def Releases : Mutex → Nat → List (mutex V E handle).Event → Prop
  | _, _, [] => False
  | d, x, .returned _ _ :: h => Releases d x h
  | d, x, .performed _ op r :: h => (op = Mutex.Op.release x ∧ ∃ v, r = .ok v) ∨
    Releases ((mutex V E handle).perform op d).2 (d.carrier x op) h

/-- A mutex that has been acquired stays so until the handle is released. -/
theorem owned_of_replays {h : List (mutex V E handle).Event} {d d' : Mutex} {x : Nat}
    (hr : (mutex V E handle).Replays d h d') (hd : d.Only x) (howned : d.owned = true)
    (hno : ¬ Releases d x h) : d'.owned = true := by
  induction h generalizing d x with
  | nil =>
      obtain rfl : d' = d := hr
      exact howned
  | cons ev h ih =>
      cases ev with
      | returned c v => exact ih hr hd howned hno
      | performed c op r =>
          obtain ⟨hcan, hres, hr⟩ := hr
          have hop : op ≠ Mutex.Op.acquire := by
            rintro rfl
            simp [mutex, howned] at hcan
          simp only [Releases, not_or] at hno
          refine ih hr (hd.perform hop) ?_ hno.2
          refine (owned_perform handle op howned).resolve_right ?_
          rintro ⟨y, rfl, hy, hok⟩
          obtain rfl := hd.valid y hy
          exact hno.1 ⟨rfl, none, hres.trans hok⟩

theorem Only.replays {h : List (mutex V E handle).Event} {d : Mutex}
    (hr : (mutex V E handle).Replays init h d) : ∃ x, d.Only x := by
  have h0 : init.Only 0 :=
    ⟨fun _ hy => (Bool.false_ne_true hy).elim, fun _ hy => (Bool.false_ne_true hy).elim⟩
  refine hr.invariant (I := fun _ (d : Mutex) => ∃ x, d.Only x) (fun h d c op hd hcan => ?_)
    (fun h d c v hd => hd) ⟨0, h0⟩
  obtain ⟨x, hd⟩ := hd
  by_cases hop : op = Mutex.Op.acquire
  · subst hop
    exact ⟨_, hd.acquire (by simpa [mutex] using hcan)⟩
  · exact ⟨_, hd.perform hop⟩

end Mutex

theorem Monitor.Replays.split {M : Monitor V E} {d d' : M.Data} {h h' : List M.Event}
    (hr : M.Replays d (h ++ h') d') : ∃ d1, M.Replays d h d1 ∧ M.Replays d1 h' d' := by
  induction h generalizing d with
  | nil => exact ⟨d, rfl, hr⟩
  | cons ev h ih =>
      cases ev with
      | performed c op r =>
          obtain ⟨hcan, hres, hr⟩ := hr
          obtain ⟨d1, h1, h2⟩ := ih (d := (M.perform op d).2) hr
          exact ⟨d1, ⟨hcan, hres, h1⟩, h2⟩
      | returned c v =>
          have hr1 : M.Replays d (h ++ h') d' := hr
          exact ih hr1

/-! ### Mutual exclusion -/

variable {C : Client (mutex V E handle)}

/-- For every run of processes that use a new mutex: at most one handle is valid and only
while the mutex is acquired; only `release()` of a valid handle frees the mutex; a
`release()` that throws, which it does for an invalid handle, only goes on in its caller;
and between two `acquire()`s that complete, what the first one returned is released. -/
theorem mutual_exclusion {h : List (mutex V E handle).Event} {s : State (trampoline C.sub)}
    (hr : C.History (fun _ _ => True) Mutex.init h s) :
    (∃ x, s.memory.1.Only x) ∧
    (∀ l s', Step s l s' → s.memory.1.owned = true → s'.memory.1.owned = false →
      ∃ c x, C.records s l = [.performed c (Mutex.Op.release x) (.ok none)] ∧
        s.memory.1.valid x = true) ∧
    (∀ l s' c x r, Step s l s' → C.records s l = [.performed c (Mutex.Op.release x) r] →
      ((∃ e, r = .error e) ↔ s.memory.1.valid x = false) ∧
      (s.memory.1.valid x = false → ∃ st, s'.inline = s.inline.setStatus c st)) ∧
    ∀ h1 c r h2 c' r' h3,
      h = h1 ++ .performed c Mutex.Op.acquire r ::
        (h2 ++ .performed c' Mutex.Op.acquire r' :: h3) →
      ∃ d, (mutex V E handle).Replays Mutex.init h1 d ∧
        r = .ok (some (handle d.nextHandle)) ∧
        Mutex.Releases ((mutex V E handle).perform Mutex.Op.acquire d).2 d.nextHandle h2 := by
  refine ⟨Mutex.Only.replays hr.replays, fun l s' hstep how hfree => ?_,
    fun l s' c x r hstep hrec => ?_, ?_⟩
  · rcases Client.object_step hr hstep with hd | ⟨c, op, hrec, -, hd⟩
    · rw [hd, how] at hfree
      cases hfree
    · rcases Mutex.owned_perform (E := E) handle op how with
        h1 | ⟨x, rfl, hx, hres⟩
      · rw [hd, h1] at hfree
        cases hfree
      · exact ⟨c, x, hrec.trans (by rw [hres]), hx⟩
  · obtain ⟨rfl, i, hst, hbased, htop, hcan, hex⟩ := Client.performed_step hr hstep hrec
    cases hx : s.memory.1.valid x with
    | true => simp [mutex, hx]
    | false =>
        have hp : (mutex V E handle).perform (Mutex.Op.release x) s.memory.1 =
            (.error (.runtimeError "called release() on invalid mutex handle"), s.memory.1) := by
          simp [mutex, hx]
        refine ⟨by simp [hp], fun _ => ?_⟩
        obtain ⟨i', hn⟩ := Inlined.next_throws htop hbased (m := s.memory) hcan
          (congrArg Prod.fst hp) s.now
        have hmem : ((mutex V E handle).perform (Mutex.Op.release x) s.memory.1).2 =
            s.memory.1 := congrArg Prod.snd hp
        rw [hmem] at hn
        rw [Inlined.exec_tau hst hn] at hex
        exact ⟨_, (Except.ok.inj hex).symm⟩
  · rintro h1 c r h2 c' r' h3 rfl
    obtain ⟨d1, hr1, hr2⟩ := hr.replays.split
    obtain ⟨hcan, hres, hr2⟩ := hr2
    obtain ⟨d2, hr2, hcan', -⟩ := hr2.split
    refine ⟨d1, hr1, hres, ?_⟩
    obtain ⟨x, hd⟩ := Mutex.Only.replays hr1
    have hfree : d2.owned = false := by simpa [mutex] using hcan'
    by_contra hno
    have hacq := hd.acquire (by simpa [mutex] using hcan)
    have howned := Mutex.owned_of_replays hr2 hacq rfl hno
    rw [hfree] at howned
    cases howned

/-- A client of a mutex with processes that acquire it and keep it, and processes that acquire it,
move the handle, delay, try to release it through the old handle, and release it. -/
def owner : Client (mutex Nat Unit id) where
  User := Bool
  Body := Nat
  Memory := Unit
  event := 0
  start keeps := if keeps then 5 else 0
  next b _ m _ := (m, match b with
    | 0 => .operate Mutex.Op.acquire fun _ => 1
    | 1 => .operate (Mutex.Op.move 0) fun _ => 2
    | 2 => .act (.await (.timeout true 5 PriorityConsts.inherit none) fun _ => 3)
    | 3 => .operate (Mutex.Op.release 0) fun _ => 4
    | 4 => .operate (Mutex.Op.release 1) fun _ => 6
    | 5 => .operate Mutex.Op.acquire fun _ => 6
    | _ => .act (.coReturn none))
  keepsOut b _ _ _ := by
    match b with
    | 0 | 1 | 2 | 3 | 4 | 5 => trivial
    | _ + 6 => trivial

namespace owner

/-- Process 1 waits for the mutex while process 0 delays, and acquires it when process 0 has
released it. -/
def done : List (mutex Nat Unit id).Event × State (trampoline owner.sub) :=
  owner.follow [] (State.init (Mutex.init, ()))
    ([.bind (.call false {}), .step 0] ++ List.replicate 24 (.exec 0) ++
      [.bind (.call true {}), .step 3] ++ List.replicate 12 (.exec 1) ++ [.step 2] ++
      List.replicate 32 (.exec 0) ++ [.step 5] ++ List.replicate 24 (.exec 1))

theorem done_history : owner.History (fun _ _ => True) Mutex.init done.1 done.2 := by
  unfold done
  exact owner.follow_history (fun _ _ _ => trivial) _ _ _

end owner

theorem mutual_exclusion_owner :
    (owner.done.2.memory.1.valid 2 = true ∧ owner.done.2.memory.1.valid 1 = false) ∧
      ∃ x, owner.done.2.memory.1.Only x :=
  ⟨by decide +kernel, (mutual_exclusion owner.done_history).1⟩

end Cxxdes
