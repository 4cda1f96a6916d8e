-- SUMMARY: The call stack and the loop of resume evaluate nested subroutines like the direct evaluation.
import Cxxdes.Run.ViewRuns
import Cxxdes.Subroutine.Machine

/-!
# Trampolined subroutines

The frames of a well-formed machine are a chain of calls with the top frame ready to
go on. Reading the chain from the top gives the nested evaluation (`Machine.inline`):
pushing and popping a frame are steps of the nested evaluation, and the steps of the
loop are silent.
-/

namespace Cxxdes

variable {S : SubProgram}

/-! ### Actions -/

/-- The body ends with the action. -/
def Action.ends {U φ V E : Type} : Action U φ V E → Bool
  | .coReturn _ => true
  | .throw _ => true
  | _ => false

theorem Action.map_map {U φ ψ χ V E : Type} (g : φ → ψ) (h : ψ → χ) (a : Action U φ V E) :
    (a.map g).map h = a.map fun f => h (g f) := by
  cases a <;> rfl

theorem Action.map_id {U φ V E : Type} (a : Action U φ V E) : (a.map fun f => f) = a := by
  cases a <;> rfl

theorem Action.ends_map {U φ ψ V E : Type} (g : φ → ψ) (a : Action U φ V E) :
    (a.map g).ends = a.ends := by
  cases a <;> rfl

namespace Machine

/-! ### Well-formed machines -/

/-- Each frame of the list is calling the one above it, the first one is calling `i`. -/
def Linked (m : Machine S) : FrameId → List FrameId → Prop
  | _, [] => True
  | i, j :: js => (∃ k, m.frames j = .calling i k) ∧ m.Linked j js

/-- The call stack is a chain of calls with the frame `top` at its end. -/
structure Stacked (m : Machine S) (top : FrameId) (rest : List FrameId) : Prop where
  stack : m.callStack = top :: rest
  fresh : ∀ i ∈ top :: rest, i < m.nextFrame
  nodup : (top :: rest).Nodup
  linked : m.Linked top rest

/-- The top frame has not begun, or the subroutine it is calling is finished. -/
def Resumable (m : Machine S) (top : FrameId) : Prop :=
  (∃ b, m.frames top = .initial b) ∨
    ∃ callee k b r, m.frames top = .calling callee k ∧ m.frames callee = .done b r

/-- The top frame fits the place where control is. -/
def TopOk (m : Machine S) (top : FrameId) : Prop :=
  match m.control with
  | .loop none => m.Resumable top
  | .loop (some _) => ∃ k, m.frames top = .waiting k
  | .inside => m.shouldContinue = false ∧ ∃ b, m.frames top = .running b
  | .check => m.shouldContinue = true ∧ m.Resumable top
  | .returned => False
  | .stuck => False

def Ok (m : Machine S) : Prop :=
  ∃ top rest, m.Stacked top rest ∧ m.TopOk top

theorem Linked.congr {m m' : Machine S} {i : FrameId} {js : List FrameId} (h : m.Linked i js)
    (hf : ∀ j ∈ js, m'.frames j = m.frames j) : m'.Linked i js := by
  induction js generalizing i with
  | nil => trivial
  | cons j js ih =>
      obtain ⟨⟨k, hk⟩, hl⟩ := h
      refine ⟨⟨k, ?_⟩, ih hl fun a ha => hf a (List.mem_cons_of_mem j ha)⟩
      rw [hf j (List.mem_cons.mpr (.inl rfl))]
      exact hk

/-- Changing the top frame keeps the chain below it. -/
theorem Stacked.setTop {m m' : Machine S} {top : FrameId} {rest : List FrameId}
    (h : m.Stacked top rest) {f : SubFrame S} (hf : m'.frames = Function.update m.frames top f)
    (hs : m'.callStack = m.callStack) (hn : m'.nextFrame = m.nextFrame) :
    m'.Stacked top rest where
  stack := hs.trans h.stack
  fresh := by rw [hn]; exact h.fresh
  nodup := h.nodup
  linked := by
    refine h.linked.congr fun j hj => ?_
    have hne : j ≠ top := by
      rintro rfl
      exact (List.nodup_cons.mp h.nodup).1 hj
    rw [hf, Function.update_of_ne hne]

/-! ### The nested evaluation of a machine -/

/-- The result with which `step()` calls `resume()`. -/
def result (m : Machine S) : Option (Result S.Value S.Error) :=
  match m.control with
  | .loop r => r
  | _ => none

/-- The state in which the body of a frame goes on. -/
def bodyOf (m : Machine S) (i : FrameId) : S.Body :=
  match m.frames i with
  | .initial b => b
  | .running b => b
  | .done b _ => b
  | .waiting k => k (m.result.getD (.ok .unit))
  | .calling callee k =>
    match m.frames callee with
    | .done _ r => k r
    | _ => k (.ok .unit)

/-- The frames of a list, as the callers of `c`. -/
def plug (m : Machine S) : List FrameId → Inlined S → Inlined S
  | [], c => c
  | i :: is, c =>
    match m.frames i with
    | .calling _ k => m.plug is (.within c k)
    | _ => m.plug is c

def inline (m : Machine S) : Inlined S :=
  match m.callStack with
  | [] => .body (m.bodyOf 0)
  | top :: rest => m.plug rest (.body (m.bodyOf top))

theorem plug_congr {m m' : Machine S} {is : List FrameId}
    (hf : ∀ i ∈ is, m'.frames i = m.frames i) (c : Inlined S) : m'.plug is c = m.plug is c := by
  induction is generalizing c with
  | nil => rfl
  | cons i is ih =>
      have ih := fun c => ih (fun j hj => hf j (List.mem_cons_of_mem i hj)) c
      simp only [plug, hf i (List.mem_cons.mpr (.inl rfl)), ih]

theorem plug_calling {m : Machine S} {i callee : FrameId} {k : Result S.Value S.Error → S.Body}
    (hi : m.frames i = .calling callee k) (is : List FrameId) :
    m.plug (i :: is) = fun c => m.plug is (.within c k) := by
  funext c
  simp only [plug, hi]

/-- The callers do not change what the evaluation does, unless it ends. -/
theorem Linked.plug_next {m : Machine S} {i : FrameId} {is : List FrameId} (h : m.Linked i is)
    {c : Inlined S} {mem mem' : S.Memory} {now : Int}
    {a : Action S.User (Inlined S) S.Value S.Error}
    (hc : c.next mem now = (mem', a)) (ha : a.ends = false) :
    (m.plug is c).next mem now = (mem', a.map (m.plug is)) := by
  induction is generalizing i c a with
  | nil =>
      rw [plug, hc]
      exact congrArg (Prod.mk mem') (Action.map_id a).symm
  | cons j js ih =>
      obtain ⟨⟨k, hk⟩, hl⟩ := h
      have hw : (Inlined.within c k).next mem now = (mem', a.map fun c => .within c k) := by
        simp only [Inlined.next, hc]
        cases a <;> first | rfl | cases ha
      have h := ih hl hw ((Action.ends_map _ a).trans ha)
      rw [Action.map_map] at h
      rw [plug_calling hk]
      exact h

theorem Stacked.inline_eq {m : Machine S} {top : FrameId} {rest : List FrameId}
    (h : m.Stacked top rest) : m.inline = m.plug rest (.body (m.bodyOf top)) := by
  unfold inline
  rw [h.stack]

/-- The nested evaluation depends on the frames below the top only through their calls. -/
theorem Stacked.plug_setTop {m m' : Machine S} {top : FrameId} {rest : List FrameId}
    (h : m.Stacked top rest) {f : SubFrame S} (hf : m'.frames = Function.update m.frames top f)
    (c : Inlined S) : m'.plug rest c = m.plug rest c := by
  refine plug_congr (fun i hi => ?_) c
  have hne : i ≠ top := by
    rintro rfl
    exact (List.nodup_cons.mp h.nodup).1 hi
  rw [hf, Function.update_of_ne hne]

/-! ### The operations of the machine -/

/-- The top frame runs on in state `b`. -/
theorem Stacked.enter {m : Machine S} {top : FrameId} {rest : List FrameId}
    (h : m.Stacked top rest) (b : S.Body) (hflag : m.shouldContinue = false) :
    (m.enter top b).Ok ∧ (m.enter top b).inline = m.plug rest (.body b) := by
  have hs : (m.enter top b).Stacked top rest := h.setTop rfl rfl rfl
  have hb : (m.enter top b).frames top = .running b := Function.update_self ..
  refine ⟨⟨top, rest, hs, hflag, b, hb⟩, ?_⟩
  rw [hs.inline_eq, h.plug_setTop rfl]
  unfold bodyOf
  rw [hb]

/-- The loop body resumes the top frame where its body goes on. -/
theorem resumeTop_eq {m : Machine S} {top : FrameId} {rest : List FrameId}
    {r : Option (Result S.Value S.Error)} (h : m.Stacked top rest) (hc : m.control = .loop r)
    (ht : m.TopOk top) :
    m.resumeTop r = ({ m with shouldContinue := false }).enter top (m.bodyOf top) := by
  unfold TopOk at ht
  rw [hc] at ht
  unfold resumeTop bodyOf result
  simp only [h.stack, hc]
  cases r with
  | none =>
      rcases ht with ⟨b, hb⟩ | ⟨callee, k, b, r, hk, hd⟩
      · simp only [hb]
      · simp only [hk, hd]
  | some r =>
      obtain ⟨k, hk⟩ := ht
      simp only [hk, Option.getD_some]

theorem resumeTop_ok {m : Machine S} {r : Option (Result S.Value S.Error)} (h : m.Ok)
    (hc : m.control = .loop r) : (m.resumeTop r).Ok ∧ (m.resumeTop r).inline = m.inline := by
  obtain ⟨top, rest, hs, ht⟩ := h
  have hs' : ({ m with shouldContinue := false } : Machine S).Stacked top rest :=
    ⟨hs.stack, hs.fresh, hs.nodup, hs.linked.congr fun _ _ => rfl⟩
  rw [resumeTop_eq hs hc ht, hs.inline_eq]
  obtain ⟨hok, hin⟩ := hs'.enter (m.bodyOf top) rfl
  have hsame : ∀ i ∈ rest, ({ m with shouldContinue := false } : Machine S).frames i =
      m.frames i := fun _ _ => rfl
  exact ⟨hok, hin.trans (plug_congr hsame _)⟩

theorem resumeTop_inside {m : Machine S} {r : Option (Result S.Value S.Error)} (h : m.Ok)
    (hc : m.control = .loop r) : (m.resumeTop r).control = .inside := by
  obtain ⟨top, rest, hs, ht⟩ := h
  rw [resumeTop_eq hs hc ht]
  rfl

theorem checkLoop_ok {m : Machine S} (h : m.Ok) (hc : m.control = .check) :
    m.checkLoop.Ok ∧ m.checkLoop.inline = m.inline ∧ m.checkLoop.control = .loop none := by
  obtain ⟨top, rest, hs, ht⟩ := h
  unfold TopOk at ht
  rw [hc] at ht
  have hctl : m.checkLoop.control = .loop none := by
    unfold checkLoop
    rw [ht.1]
    rfl
  have hs' : m.checkLoop.Stacked top rest :=
    ⟨hs.stack, hs.fresh, hs.nodup, hs.linked.congr fun _ _ => rfl⟩
  refine ⟨⟨top, rest, hs', ?_⟩, ?_, hctl⟩
  · unfold TopOk
    rw [hctl]
    exact ht.2
  · have hb : m.checkLoop.bodyOf top = m.bodyOf top := by
      rcases ht.2 with ⟨b, hb⟩ | ⟨callee, k, b, r, hk, hd⟩
      · have hb' : m.checkLoop.frames top = .initial b := hb
        unfold bodyOf
        rw [hb, hb']
      · have hk' : m.checkLoop.frames top = .calling callee k := hk
        have hd' : m.checkLoop.frames callee = .done b r := hd
        unfold bodyOf
        simp only [hk, hd, hk', hd']
    have hsame : ∀ i ∈ rest, m.checkLoop.frames i = m.frames i := fun _ _ => rfl
    rw [hs'.inline_eq, hs.inline_eq, hb]
    exact plug_congr hsame _

/-- A call pushes a frame: the caller goes on with the outcome of the callee. -/
theorem Stacked.call {m : Machine S} {top : FrameId} {rest : List FrameId}
    (h : m.Stacked top rest) (g : S.Body) (k : Result S.Value S.Error → S.Body) :
    (m.call top g k).Ok ∧
      (m.call top g k).inline = m.plug rest (.within (.body g) k) := by
  have hlt : ∀ i ∈ top :: rest, i ≠ m.nextFrame := fun i hi => Nat.ne_of_lt (h.fresh i hi)
  have htop : top ≠ m.nextFrame := hlt top (List.mem_cons.mpr (.inl rfl))
  have hold : ∀ i ∈ rest, (m.call top g k).frames i = m.frames i := by
    intro i hi
    have hne : i ≠ top := by
      rintro rfl
      exact (List.nodup_cons.mp h.nodup).1 hi
    have hnew := hlt i (List.mem_cons_of_mem top hi)
    simp only [Machine.call, Function.update_of_ne hnew, Function.update_of_ne hne]
  have hcaller : (m.call top g k).frames top = .calling m.nextFrame k := by
    simp only [Machine.call, Function.update_of_ne htop, Function.update_self]
  have hcallee : (m.call top g k).frames m.nextFrame = .initial g := Function.update_self ..
  have hs : (m.call top g k).Stacked m.nextFrame (top :: rest) := by
    refine ⟨congrArg (List.cons m.nextFrame) h.stack, ?_, ?_, ⟨⟨k, hcaller⟩, h.linked.congr hold⟩⟩
    · intro i hi
      rcases List.mem_cons.mp hi with rfl | hi
      · exact Nat.lt_succ_self _
      · exact Nat.lt_succ_of_lt (h.fresh i hi)
    · exact List.nodup_cons.mpr ⟨fun hm => hlt _ hm rfl, h.nodup⟩
  refine ⟨⟨_, _, hs, rfl, .inl ⟨g, hcallee⟩⟩, ?_⟩
  rw [hs.inline_eq, plug_calling hcaller]
  unfold bodyOf
  simp only [hcallee]
  exact plug_congr hold _

/-- The end of a subroutine pops its frame: its caller goes on with the outcome. -/
theorem Stacked.finish {m : Machine S} {top j : FrameId} {js : List FrameId}
    (h : m.Stacked top (j :: js)) (b : S.Body) (r : Result S.Value S.Error)
    {k : Result S.Value S.Error → S.Body} (hk : m.frames j = .calling top k) :
    (m.finish top b r).Ok ∧ (m.finish top b r).inline = m.plug js (.body (k r)) := by
  obtain ⟨hnot, hnd⟩ := List.nodup_cons.mp h.nodup
  have hold : ∀ i ∈ j :: js, (m.finish top b r).frames i = m.frames i := by
    intro i hi
    have hne : i ≠ top := by
      rintro rfl
      exact hnot hi
    exact Function.update_of_ne hne _ _
  have hj : (m.finish top b r).frames j = .calling top k :=
    (hold j (List.mem_cons.mpr (.inl rfl))).trans hk
  have hd : (m.finish top b r).frames top = .done b r := Function.update_self ..
  have hs : (m.finish top b r).Stacked j js := by
    refine ⟨?_, fun i hi => h.fresh i (List.mem_cons_of_mem top hi), hnd, ?_⟩
    · exact congrArg List.tail h.stack
    · exact h.linked.2.congr fun i hi => hold i (List.mem_cons_of_mem j hi)
  refine ⟨⟨j, js, hs, rfl, .inr ⟨top, k, b, r, hj, hd⟩⟩, ?_⟩
  rw [hs.inline_eq]
  unfold bodyOf
  simp only [hj, hd]
  exact plug_congr (fun i hi => hold i (List.mem_cons_of_mem j hi)) _

/-- A suspension leaves the loop, and the next `resume()` finds the frame on top. -/
theorem reenter_eq {m : Machine S} {top : FrameId} (hflag : m.shouldContinue = false)
    (k : Result S.Value S.Error → S.Body) (r : Result S.Value S.Error) :
    (m.suspendTop top k).checkLoop.reenter r =
      { m.setFrame top (.waiting k) with control := .loop (some r) } := by
  simp [suspendTop, checkLoop, reenter, setFrame, hflag]

/-- A frame that was suspended runs on as if it had not been. -/
theorem reenter_resumeTop {m : Machine S} {top : FrameId} {rest : List FrameId}
    (h : m.Stacked top rest) (hflag : m.shouldContinue = false)
    (k : Result S.Value S.Error → S.Body) (r : Result S.Value S.Error) :
    ((m.suspendTop top k).checkLoop.reenter r).resumeTop (some r) = m.enter top (k r) := by
  rw [reenter_eq hflag]
  simp [resumeTop, setFrame, enter, h.stack, hflag]

theorem Stacked.reenter {m : Machine S} {top : FrameId} {rest : List FrameId}
    (h : m.Stacked top rest) (hflag : m.shouldContinue = false)
    (k : Result S.Value S.Error → S.Body) (r : Result S.Value S.Error) :
    ((m.suspendTop top k).checkLoop.reenter r).Ok ∧
      ((m.suspendTop top k).checkLoop.reenter r).inline = m.plug rest (.body (k r)) := by
  rw [reenter_eq hflag]
  have hw : ({ m.setFrame top (.waiting k) with control := .loop (some r) } :
      Machine S).frames top = .waiting k := Function.update_self ..
  have hs : ({ m.setFrame top (.waiting k) with control := .loop (some r) } :
      Machine S).Stacked top rest := h.setTop rfl rfl rfl
  refine ⟨⟨top, rest, hs, k, hw⟩, ?_⟩
  rw [hs.inline_eq, h.plug_setTop rfl]
  unfold bodyOf
  rw [hw]
  rfl

end Machine

end Cxxdes
