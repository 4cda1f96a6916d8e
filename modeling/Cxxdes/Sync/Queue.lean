-- SUMMARY: A queue is linearizable and keeps its capacity, for any number of producers and consumers.
import Cxxdes.Sync.History

/-!
# Queues

The values that have been removed, followed by the stored ones, are the values that have
been inserted, in the order in which the insertions and removals happen.
-/

namespace Cxxdes

variable {V E : Type}

/-! ### Histories of a queue -/

namespace Queue

/-- The value that is inserted, if any. -/
def insertedBy : (queue V E).Event → Option V
  | .performed _ (Queue.Op.put v) _ => some v
  | _ => none

/-- The value that is removed, if any. -/
def removedBy : (queue V E).Event → Option V
  | .performed _ Queue.Op.pop (.ok v) => v
  | _ => none

def inserted (h : List (queue V E).Event) : List V := h.filterMap insertedBy

def removed (h : List (queue V E).Event) : List V := h.filterMap removedBy

theorem inserted_append (h : List (queue V E).Event) (ev : (queue V E).Event) :
    inserted (h ++ [ev]) = inserted h ++ (insertedBy ev).toList := by
  unfold inserted
  rw [List.filterMap_append]
  cases hev : insertedBy ev <;> simp [hev]

theorem removed_append (h : List (queue V E).Event) (ev : (queue V E).Event) :
    removed (h ++ [ev]) = removed h ++ (removedBy ev).toList := by
  unfold removed
  rw [List.filterMap_append]
  cases hev : removedBy ev <;> simp [hev]

/-- What holds of a queue made with `maxSize` after the history `h`. -/
structure Accounts (maxSize : Nat) (h : List (queue V E).Event) (d : Queue V) : Prop where
  contents : removed h ++ d.q = inserted h
  maxSize_eq : d.maxSize = maxSize
  capacity : d.bounded = true → d.size ≤ d.maxSize
  /-- every `pop` that is performed removes a value -/
  pops : ∀ c r, .performed c Queue.Op.pop r ∈ h → ∃ v, r = .ok (some v)

theorem Accounts.init (maxSize : Nat) : Accounts (V := V) (E := E) maxSize [] ⟨maxSize, []⟩ where
  contents := rfl
  maxSize_eq := rfl
  capacity _ := Nat.zero_le _
  pops c r hm := by cases hm

theorem Accounts.put {maxSize : Nat} {h : List (queue V E).Event} {d : Queue V}
    (ha : Accounts maxSize h d) (c : CoroId) (v : V) (hcan : d.canPut = true) :
    Accounts maxSize (h ++ [.performed c (Queue.Op.put v) (.ok none)])
      { d with q := d.q ++ [v] } where
  contents := by
    simp [removed_append, inserted_append, removedBy, insertedBy, ← ha.contents]
  maxSize_eq := ha.maxSize_eq
  capacity hb := by
    have hb : d.bounded = true := hb
    have hlt : d.size < d.maxSize := by simpa [canPut, hb] using hcan
    have hsize : (d.q ++ [v]).length = d.q.length + 1 := List.length_append
    exact Nat.le_trans (Nat.le_of_eq hsize) hlt
  pops c' r hm := by
    rcases List.mem_append.mp hm with hm | hm
    · exact ha.pops c' r hm
    · cases List.mem_singleton.mp hm

theorem Accounts.pop {maxSize : Nat} {h : List (queue V E).Event} {d : Queue V}
    (ha : Accounts maxSize h d) (c : CoroId) (hcan : d.canPop = true) :
    Accounts maxSize (h ++ [.performed c Queue.Op.pop (.ok d.q.head?)])
      { d with q := d.q.tail } := by
  obtain ⟨m, q⟩ := d
  cases q with
  | nil => simp [canPop, size] at hcan
  | cons v q =>
      refine ⟨?_, ha.maxSize_eq, fun hb => ?_, fun c' r hm => ?_⟩
      · simp [removed_append, inserted_append, removedBy, insertedBy, ← ha.contents]
      · exact Nat.le_of_succ_le (ha.capacity hb)
      · rcases List.mem_append.mp hm with hm | hm
        · exact ha.pops c' r hm
        · cases List.mem_singleton.mp hm
          exact ⟨v, rfl⟩

theorem Accounts.returned {maxSize : Nat} {h : List (queue V E).Event} {d : Queue V}
    (ha : Accounts maxSize h d) (c : CoroId) (v : Option V) :
    Accounts maxSize (h ++ [.returned c v]) d where
  contents := by
    rw [removed_append, inserted_append, ← ha.contents]
    change (removed h ++ []) ++ d.q = (removed h ++ d.q) ++ []
    rw [List.append_nil, List.append_nil]
  maxSize_eq := ha.maxSize_eq
  capacity := ha.capacity
  pops c' r hm := by
    rcases List.mem_append.mp hm with hm | hm
    · exact ha.pops c' r hm
    · cases List.mem_singleton.mp hm

end Queue

/-! ### Linearizability -/

variable {C : Client (queue V E)}

/-- For every run of processes that use a new queue: the values removed, in the order of
the removals, and the stored values after them are the values inserted, in the order of
the insertions; a bounded queue holds at most `maxSize` values; and an operation returns
its own result, a `pop` the value it has removed, to the body that has called it. -/
theorem queue_linearizable {maxSize : Nat} {h : List (queue V E).Event}
    {s : State (trampoline C.sub)} (hr : C.History (fun _ _ => True) ⟨maxSize, []⟩ h s) :
    Queue.Accounts maxSize h s.memory.1 ∧ (queue V E).Answered h ∧ C.Calls s.inline := by
  refine ⟨?_, hr.answered, hr.calls⟩
  refine hr.replays.invariant (I := fun h (d : Queue V) => Queue.Accounts maxSize h d)
    (fun h d c op ha hcan => ?_) (fun h d c v ha => ha.returned c v) (Queue.Accounts.init maxSize)
  cases op with
  | put v => exact ha.put c v hcan
  | pop => exact ha.pop c hcan

/-- A client of a queue with processes that put one value and processes that take values out. -/
def clerk : Client (queue Nat Unit) where
  User := Bool
  Body := Nat
  Memory := Unit
  event := 0
  start puts := if puts then 0 else 1
  next b _ m _ := (m, match b with
    | 0 => .operate (Queue.Op.put 7) fun _ => 2
    | 1 => .operate Queue.Op.pop fun _ => 1
    | _ => .act (.coReturn none))
  keepsOut b _ _ _ := by
    match b with
    | 0 | 1 => trivial
    | _ + 2 => trivial

namespace clerk

/-- Process 0 waits in `pop()`, process 1 puts a value and ends, and process 0 takes it out and
waits again. -/
def done : List (queue Nat Unit).Event × State (trampoline clerk.sub) :=
  clerk.follow [] (State.init ((⟨1, []⟩ : Queue Nat), ()))
    ([.bind (.call false {}), .step 0] ++ List.replicate 12 (.exec 0) ++
      [.bind (.call true {}), .step 3] ++ List.replicate 16 (.exec 1) ++ [.step 2] ++
      List.replicate 24 (.exec 0) ++ [.step 4])

theorem done_history : clerk.History (fun _ _ => True) ⟨1, []⟩ done.1 done.2 := by
  unfold done
  exact clerk.follow_history (fun _ _ _ => trivial) _ _ _

end clerk

theorem queue_linearizable_clerk :
    Queue.removed clerk.done.1 = [7] ∧ Queue.Accounts 1 clerk.done.1 clerk.done.2.memory.1 :=
  ⟨by decide +kernel, (queue_linearizable clerk.done_history).1⟩

end Cxxdes
