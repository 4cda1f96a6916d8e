-- SUMMARY: The value of a semaphore is its initial value plus the increments less the decrements, and no up() raises it above its maximum.
import Cxxdes.Sync.History

/-!
# Semaphores

The test of the guard and the update of the value are one step of the body, so the value
never wraps around, in any interleaving of any number of processes.
-/

namespace Cxxdes

variable {V E : Type} {w : Nat}

/-! ### Histories of a semaphore -/

namespace Semaphore

def isUp : (semaphore V E w).Event → Bool
  | .performed _ Semaphore.Op.up _ => true
  | _ => false

def isDown : (semaphore V E w).Event → Bool
  | .performed _ Semaphore.Op.down _ => true
  | _ => false

/-- The increments that have been made. -/
def ups (h : List (semaphore V E w).Event) : Nat := h.countP isUp

/-- The decrements that have been made. -/
def downs (h : List (semaphore V E w).Event) : Nat := h.countP isDown

/-- What holds of a semaphore made with the value `v0` and the maximum `m` after the
history `h`. -/
structure Accounts (v0 m : BitVec w) (h : List (semaphore V E w).Event) (d : Semaphore w) :
    Prop where
  value : (d.value.toNat : Int) = v0.toNat + ups h - downs h
  bound : d.value.toNat ≤ Nat.max v0.toNat m.toNat
  max_eq : d.max = m

theorem Accounts.init (v0 m : BitVec w) : Accounts (V := V) (E := E) v0 m [] ⟨v0, m⟩ where
  value := by simp [ups, downs]
  bound := Nat.le_max_left _ _
  max_eq := rfl

/-- The increment does not wrap around, and it stays below the maximum. -/
theorem up_toNat {d : Semaphore w} (hcan : d.value < d.max) :
    (d.value + 1).toNat = d.value.toNat + 1 ∧ d.value.toNat + 1 ≤ d.max.toNat := by
  have hlt : d.value.toNat < d.max.toNat := BitVec.lt_def.mp hcan
  have hmax : d.max.toNat < 2 ^ w := d.max.isLt
  have hone : (1 : BitVec w).toNat = 1 % 2 ^ w := BitVec.toNat_ofNat 1 w
  refine ⟨?_, hlt⟩
  rw [BitVec.toNat_add, hone, Nat.add_mod_mod]
  exact Nat.mod_eq_of_lt (by omega)

theorem down_toNat {d : Semaphore w} (hcan : 0 < d.value) :
    (d.value - 1).toNat + 1 = d.value.toNat := by
  have hlt : 0 < d.value.toNat := by simpa using BitVec.lt_def.mp hcan
  have hle : 1#w ≤ d.value := by
    rw [BitVec.le_def, BitVec.toNat_ofNat]
    exact Nat.le_trans (Nat.mod_le 1 _) hlt
  have hw : 1 < 2 ^ w := Nat.lt_of_le_of_lt hlt d.value.isLt
  have hone : (1#w).toNat = 1 := by rw [BitVec.toNat_ofNat, Nat.mod_eq_of_lt hw]
  have hsub : (d.value - 1#w).toNat = d.value.toNat - 1 := by
    rw [BitVec.toNat_sub_of_le hle, hone]
  exact (congrArg (· + 1) hsub).trans (Nat.sub_add_cancel hlt)

variable {v0 m : BitVec w} {h : List (semaphore V E w).Event} {d : Semaphore w}

theorem Accounts.up (ha : Accounts v0 m h d) (c : CoroId) (r : Except (Exn E) (Option V))
    (hcan : d.value < d.max) :
    Accounts v0 m (h ++ [.performed c Semaphore.Op.up r]) { d with value := d.value + 1 } := by
  obtain ⟨hval, hle⟩ := up_toNat hcan
  have hups : ups (h ++ [.performed c Semaphore.Op.up r]) = ups h + 1 := List.countP_append ..
  have hdowns : downs (h ++ [.performed c Semaphore.Op.up r]) = downs h := List.countP_append ..
  have hv := ha.value
  refine ⟨?_, ?_, ha.max_eq⟩
  · rw [hups, hdowns]
    change ((d.value + 1).toNat : Int) = _
    rw [hval]
    omega
  · change (d.value + 1).toNat ≤ _
    rw [hval]
    rw [ha.max_eq] at hle
    exact Nat.le_trans hle (Nat.le_max_right _ _)

theorem Accounts.down (ha : Accounts v0 m h d) (c : CoroId) (r : Except (Exn E) (Option V))
    (hcan : 0 < d.value) :
    Accounts v0 m (h ++ [.performed c Semaphore.Op.down r]) { d with value := d.value - 1 } := by
  have hval := down_toNat hcan
  have hups : ups (h ++ [.performed c Semaphore.Op.down r]) = ups h := List.countP_append ..
  have hdowns : downs (h ++ [.performed c Semaphore.Op.down r]) = downs h + 1 :=
    List.countP_append ..
  have hv := ha.value
  have hb := ha.bound
  refine ⟨?_, ?_, ha.max_eq⟩
  · rw [hups, hdowns]
    change ((d.value - 1).toNat : Int) = _
    omega
  · change (d.value - 1).toNat ≤ _
    omega

theorem Accounts.returned (ha : Accounts v0 m h d) (c : CoroId) (v : Option V) :
    Accounts v0 m (h ++ [.returned c v]) d := by
  have hups : ups (h ++ [.returned c v]) = ups h := List.countP_append ..
  have hdowns : downs (h ++ [.returned c v]) = downs h := List.countP_append ..
  exact ⟨by rw [hups, hdowns]; exact ha.value, ha.bound, ha.max_eq⟩

theorem Accounts.replays (hr : (semaphore V E w).Replays (⟨v0, m⟩ : Semaphore w) h d) :
    Accounts v0 m h d := by
  refine hr.invariant (I := fun h (d : Semaphore w) => Accounts v0 m h d)
    (fun h d c op ha hcan => ?_) (fun h d c v ha => ha.returned c v) (Accounts.init v0 m)
  cases op with
  | up => exact ha.up c _ (by simpa [semaphore] using hcan)
  | down => exact ha.down c _ (by simpa [semaphore] using hcan)

end Semaphore

/-! ### Accounting -/

variable {C : Client (semaphore V E w)}

/-- For every run of processes that use a semaphore made with the value `v0`, which may be
above the maximum `m`: the value is `v0` plus the increments less the decrements that
have been made, as integers, and at most `max v0 m`; and no step raises it above `m`. -/
theorem semaphore_accounting {v0 m : BitVec w} {h : List (semaphore V E w).Event}
    {s : State (trampoline C.sub)} (hr : C.History (fun _ _ => True) ⟨v0, m⟩ h s) :
    Semaphore.Accounts v0 m h s.memory.1 ∧
      ∀ l s', Step s l s' → s.memory.1.value < s'.memory.1.value → s'.memory.1.value ≤ m := by
  have haccounts : Semaphore.Accounts v0 m h s.memory.1 := .replays hr.replays
  refine ⟨haccounts, fun l s' hstep hlt => ?_⟩
  rw [← haccounts.max_eq]
  rcases Client.object_step hr hstep with hd | ⟨c, op, -, hcan, hd⟩
  · rw [hd] at hlt
    exact absurd hlt (BitVec.lt_irrefl _)
  · rw [hd] at hlt ⊢
    cases op with
    | up =>
        have hup := Semaphore.up_toNat (d := s.memory.1) (by simpa [semaphore] using hcan)
        exact BitVec.le_def.mpr (Nat.le_trans (Nat.le_of_eq hup.1) hup.2)
    | down =>
        have hdown := Semaphore.down_toNat (d := s.memory.1) (by simpa [semaphore] using hcan)
        have hlt : s.memory.1.value.toNat < (s.memory.1.value - 1).toNat := BitVec.lt_def.mp hlt
        omega

/-- A client of a semaphore with processes that put a permit back and processes that take one. -/
def turnstile : Client (semaphore Unit Unit 8) where
  User := Bool
  Body := Nat
  Memory := Unit
  event := 0
  start ups := if ups then 0 else 1
  next b _ m _ := (m, match b with
    | 0 => .operate Semaphore.Op.up fun _ => 2
    | 1 => .operate Semaphore.Op.down fun _ => 2
    | _ => .act (.coReturn none))
  keepsOut b _ _ _ := by
    match b with
    | 0 | 1 => trivial
    | _ + 2 => trivial

namespace turnstile

/-- Process 0 waits in `down()` for a permit, process 1 puts one back, and process 0 takes it. -/
def done : List (semaphore Unit Unit 8).Event × State (trampoline turnstile.sub) :=
  turnstile.follow [] (State.init ((⟨0, 2⟩ : Semaphore 8), ()))
    ([.bind (.call false {}), .step 0] ++ List.replicate 12 (.exec 0) ++
      [.bind (.call true {}), .step 3] ++ List.replicate 16 (.exec 1) ++ [.step 2] ++
      List.replicate 16 (.exec 0))

theorem done_history : turnstile.History (fun _ _ => True) ⟨0, 2⟩ done.1 done.2 := by
  unfold done
  exact turnstile.follow_history (fun _ _ _ => trivial) _ _ _

end turnstile

theorem semaphore_accounting_turnstile :
    Semaphore.ups turnstile.done.1 = 1 ∧ Semaphore.downs turnstile.done.1 = 1 ∧
      Semaphore.Accounts 0 2 turnstile.done.1 turnstile.done.2.memory.1 :=
  ⟨by decide +kernel, by decide +kernel, (semaphore_accounting turnstile.done_history).1⟩

end Cxxdes
