-- SUMMARY: What is true of every process of an environment between two operations: which frames exist, who is listed, and where its token is.
import Cxxdes.Lifetime.Counting

/-!
# Frames

A process that has not been started is not known to the environment. One that has been
started is in `coroutines_` as long as it is incomplete, which is as long as its frame
exists, and until then it has at most one token in the queue, being executed, or among the
completion tokens of a process that it awaits. Events and handlers may hold more of its tokens.
-/

namespace Cxxdes.Lifetime

open RefCount

/-- A process between two operations. -/
structure Data.Ok (d : Data) : Prop where
  idle : d.started = false → d.complete = false ∧ d.owned = []
  destroyed : d.destroyedBy.length = if d.frame then 0 else 1
  complete : d.started = true → d.complete = !d.frame

/-- The environment and its processes, between two operations. -/
structure Sound (t : Table) : Prop where
  data : ∀ c < t.nextData, (t.data c).Ok
  new : ∀ c, t.nextData ≤ c → t.data c = {}
  used : ∀ c, c ∈ t.queue ∨ t.current = some c ∨ c ∈ t.kept ∨ c ∈ t.parked →
    (t.data c).started = true
  owned : ∀ c d, c ∈ (t.data d).owned → (t.data c).started = true
  listed : ∀ c, c ∈ t.coroutines ↔ (t.data c).started = true ∧ (t.data c).complete = false
  nodup : t.coroutines.Nodup
  single : ∀ c, t.tokens c ≤ if (t.data c).complete then 0 else 1
  closed : t.env = false → t.current = none ∧ t.coroutines = []

variable {t : Table} {x : Data} {c d p : CoroId}

/-- The data of one process changes. -/
theorem Table.awaiting_update (hlt : c < t.nextData) (x : Data) (d : CoroId) :
    Table.awaiting { t with data := Function.update t.data c x } d +
        (if (t.data c).complete = false then (t.data c).waiters.count d else 0) =
      t.awaiting d + if x.complete = false then x.waiters.count d else 0 := by
  have hsum := internal_update (fun e => (t.data e).waiters)
    (fun e => (Function.update t.data c x e).waiters) (fun e => !(t.data e).complete)
    (fun e => !(Function.update t.data c x e).complete) (Finset.mem_range.mpr hlt)
    (fun e he => by rw [Function.update_of_ne he])
    (fun e he => by rw [Function.update_of_ne he]) d
  rw [Function.update_self] at hsum
  unfold Table.awaiting
  simpa using hsum

namespace Sound

theorem lt (h1 : Sound t) (hc : (t.data c).started = true ∨ (t.data c).frame = true) :
    c < t.nextData := by
  by_contra hle
  rw [h1.new c (Nat.le_of_not_lt hle)] at hc
  simp at hc

theorem idle (h1 : Sound t) (hs : (t.data c).started = false) :
    (t.data c).complete = false ∧ (t.data c).owned = [] := by
  cases Nat.lt_or_ge c t.nextData with
  | inl hlt => exact (h1.data c hlt).idle hs
  | inr hge =>
      rw [h1.new c hge]
      exact ⟨rfl, rfl⟩

theorem complete (h1 : Sound t) (hs : (t.data c).started = true) :
    (t.data c).complete = !(t.data c).frame := (h1.data c (h1.lt (.inl hs))).complete hs

/-- A process that has a token is incomplete, and its frame exists. -/
theorem runnable (h1 : Sound t) (hs : (t.data c).started = true) (hpos : 0 < t.tokens c) :
    (t.data c).complete = false ∧ (t.data c).frame = true := by
  have hle := h1.single c
  have hcomp := h1.complete hs
  cases hc : (t.data c).complete with
  | true =>
      rw [hc, if_pos rfl] at hle
      omega
  | false =>
      rw [hc] at hcomp
      exact ⟨rfl, by simpa using hcomp⟩

/-- A process that has not been started has no token. -/
theorem tokens_eq_zero (h1 : Sound t) (hs : (t.data c).started = false) : t.tokens c = 0 := by
  have hno : ¬ (t.data c).started = true := by rw [hs]; exact nofun
  have hqueue : t.queue.count c = 0 :=
    List.count_eq_zero_of_not_mem fun hc => hno (h1.used c (.inl hc))
  have hcurrent : t.current.toList.count c = 0 :=
    List.count_eq_zero_of_not_mem fun hc =>
      hno (h1.used c (.inr (.inl (Option.mem_toList.mp hc))))
  have hawait : t.awaiting c = 0 := internal_eq_zero fun d _ _ hc =>
    hno (h1.owned c d (List.mem_append_right _ hc))
  rw [Table.tokens, hqueue, hcurrent, hawait]

theorem of_queue (h1 : Sound t) (hc : c ∈ t.queue) :
    (t.data c).complete = false ∧ (t.data c).frame = true := by
  apply h1.runnable (h1.used c (.inl hc))
  have hpos := List.count_pos_iff.mpr hc
  unfold Table.tokens
  omega

theorem of_current (h1 : Sound t) (hc : t.current = some c) :
    (t.data c).complete = false ∧ (t.data c).frame = true := by
  apply h1.runnable (h1.used c (.inr (.inl hc)))
  simp only [Table.tokens, hc, Option.toList_some, List.count_singleton_self]
  omega

theorem of_listed (h1 : Sound t) (hc : c ∈ t.coroutines) :
    (t.data c).complete = false ∧ (t.data c).frame = true := by
  obtain ⟨hs, hcomp⟩ := (h1.listed c).mp hc
  have hframe := h1.complete hs
  rw [hcomp] at hframe
  exact ⟨hcomp, by simpa using hframe⟩

theorem listed_of_current (h1 : Sound t) (hc : t.current = some c) : c ∈ t.coroutines :=
  (h1.listed c).mpr ⟨h1.used c (.inr (.inl hc)), (h1.of_current hc).1⟩

theorem env_of_current (h1 : Sound t) (hc : t.current = some c) : t.env = true := by
  cases henv : t.env with
  | true => rfl
  | false =>
      have hnone := (h1.closed henv).1
      rw [hc] at hnone
      cases hnone

/-! ### Steps of a process -/

/-- Neither a process nor `coroutines_` changes. -/
theorem moveTokens {q k w : List CoroId} {o : Option CoroId} (h1 : Sound t)
    (hused : ∀ c, c ∈ q ∨ o = some c ∨ c ∈ k ∨ c ∈ w → (t.data c).started = true)
    (hcount : ∀ c, q.count c + o.toList.count c + t.awaiting c ≤
      if (t.data c).complete then 0 else 1)
    (henv : t.env = false → o = none) :
    Sound { t with queue := q, current := o, kept := k, parked := w } :=
  { h1 with
    used := hused
    single := hcount
    closed := fun hoff => ⟨henv hoff, (h1.closed hoff).2⟩ }

theorem step (h1 : Sound t) (henv : t.env = true) (hnone : t.current = none) (hc : c ∈ t.queue) :
    Sound { t with queue := t.queue.erase c, current := some c } := by
  refine h1.moveTokens (fun d hd => ?_) (fun d => ?_) fun hoff => ?_
  · cases hd with
    | inl hd => exact h1.used d (.inl (List.mem_of_mem_erase hd))
    | inr hd =>
        cases hd with
        | inl hd =>
            cases hd
            exact h1.used c (.inl hc)
        | inr hd => exact h1.used d (.inr (.inr hd))
  · have hle := h1.single d
    have herase := Counted.count_erase_add hc d
    rw [Table.tokens, hnone] at hle
    rw [Counted.count_toList]
    simp only [Option.toList_none, List.count_nil] at hle
    omega
  · rw [henv] at hoff
    cases hoff

theorem suspend (h1 : Sound t) (hc : t.current = some c) :
    Sound { t with queue := t.queue ++ [c], current := none } := by
  refine h1.moveTokens (fun d hd => ?_) (fun d => ?_) fun _ => rfl
  · have hcs := h1.used c (.inr (.inl hc))
    have hold := h1.used d
    simp only [List.mem_append, List.mem_singleton, reduceCtorEq, false_or] at hd
    grind
  · have hle := h1.single d
    rw [Table.tokens, hc] at hle
    simp only [List.count_append, Option.toList_some, Option.toList_none, List.count_nil] at hle ⊢
    omega

theorem keep (h1 : Sound t) (hc : t.current = some c) : Sound { t with kept := c :: t.kept } := by
  refine h1.moveTokens (fun d hd => ?_) h1.single fun hoff => (h1.closed hoff).1
  have hcs := h1.used c (.inr (.inl hc))
  have hold := h1.used d
  simp only [List.mem_cons] at hd
  grind

theorem unkeep (h1 : Sound t) : Sound { t with kept := t.kept.erase c } := by
  refine h1.moveTokens (fun d hd => ?_) h1.single fun hoff => (h1.closed hoff).1
  have hmem : d ∈ t.kept.erase c → d ∈ t.kept := List.mem_of_mem_erase
  have hold := h1.used d
  grind

theorem park (h1 : Sound t) (hc : t.current = some c) :
    Sound { t with parked := c :: t.parked } := by
  refine h1.moveTokens (fun d hd => ?_) h1.single fun hoff => (h1.closed hoff).1
  have hcs := h1.used c (.inr (.inl hc))
  have hold := h1.used d
  simp only [List.mem_cons] at hd
  grind

theorem forget (h1 : Sound t) : Sound { t with parked := t.parked.erase c } := by
  refine h1.moveTokens (fun d hd => ?_) h1.single fun hoff => (h1.closed hoff).1
  have hmem : d ∈ t.parked.erase c → d ∈ t.parked := List.mem_of_mem_erase
  have hold := h1.used d
  grind

/-- Control goes back to `step()`, and the process that ran has no token left. -/
theorem leave (h1 : Sound t) : Sound { t with current := none } := by
  refine h1.moveTokens (fun d hd => ?_) (fun d => ?_) fun _ => rfl
  · have hold := h1.used d
    grind
  · have hle := h1.single d
    rw [Table.tokens] at hle
    simp only [Option.toList_none, List.count_nil]
    omega

/-- A process that is suspended, and has no token but those that events and handlers hold, gets
one into the queue. -/
theorem wake (h1 : Sound t) (hc : c ∈ t.parked) (hcomp : (t.data c).complete = false)
    (hzero : t.tokens c = 0) :
    Sound { t with parked := t.parked.erase c, queue := t.queue ++ [c] } := by
  refine h1.moveTokens (fun d hd => ?_) (fun d => ?_) fun hoff => (h1.closed hoff).1
  · have hmem : d ∈ t.parked.erase c → d ∈ t.parked := List.mem_of_mem_erase
    have hcs := h1.used c (.inr (.inr (.inr hc)))
    have hold := h1.used d
    simp only [List.mem_append, List.mem_singleton] at hd
    grind
  · have hle := h1.single d
    rw [List.count_append]
    cases decEq d c with
    | isTrue hd =>
        rw [hd, hcomp, List.count_singleton_self]
        rw [Table.tokens] at hzero
        simp only [Bool.false_eq_true, if_false]
        omega
    | isFalse hd =>
        rw [List.count_singleton, if_neg (by simpa using Ne.symm hd)]
        exact hle

/-! ### The data of one process -/

theorem update_data (h1 : Sound t) (hx : x.Ok) :
    ∀ d < t.nextData, (Function.update t.data c x d).Ok := fun d hd => by
  rw [Function.update_apply]
  split
  · exact hx
  · exact h1.data d hd

theorem update_new (h1 : Sound t) (hlt : c < t.nextData) :
    ∀ d, t.nextData ≤ d → Function.update t.data c x d = {} := fun d hd => by
  rw [Function.update_of_ne (Nat.ne_of_gt (Nat.lt_of_lt_of_le hlt hd))]
  exact h1.new d hd

/-- What has been started stays so. -/
theorem update_started (hx : (t.data c).started = true → x.started = true) (d : CoroId)
    (hd : (t.data d).started = true) : (Function.update t.data c x d).started = true := by
  rw [Function.update_apply]
  split
  · next he => exact hx (he ▸ hd)
  · exact hd

theorem update_owned (h1 : Sound t) (hx : (t.data c).started = true → x.started = true)
    (hown : ∀ d ∈ x.owned, (Function.update t.data c x d).started = true) :
    ∀ d e, d ∈ (Function.update t.data c x e).owned →
      (Function.update t.data c x d).started = true := fun d e hd => by
  rw [Function.update_apply] at hd
  split at hd
  · exact hown d hd
  · exact update_started hx d (h1.owned d e hd)

theorem bind_ (h1 : Sound t) (henv : t.env = true) (hlt : c < t.nextData)
    (hns : (t.data c).started = false) (hf : (t.data c).frame = true)
    (hx : x = { t.data c with started := true, parent := t.current }) :
    Sound { t with
      data := Function.update t.data c x
      queue := t.queue ++ [c]
      coroutines := c :: t.coroutines } := by
  obtain ⟨hcomp, hown⟩ := h1.idle hns
  have hxs : x.started = true := by rw [hx]
  have hxc : x.complete = false := by rw [hx]; exact hcomp
  have hwait : (t.data c).waiters = [] := (List.append_eq_nil_iff.mp hown).2
  have hxw : x.waiters = [] := by rw [hx]; exact hwait
  refine
    { data := h1.update_data ⟨?_, ?_, fun _ => ?_⟩
      new := h1.update_new hlt
      used := fun d hd => ?_
      owned := h1.update_owned (fun _ => hxs) fun d hd => ?_
      listed := fun d => ?_
      nodup := ?_
      single := fun d => ?_
      closed := fun hoff => ?_ }
  · rw [hxs]
    exact nofun
  · rw [hx]
    exact (h1.data c hlt).destroyed
  · rw [hxc, hx, hf]
    rfl
  · have hold := h1.used d
    have hkeep := update_started (t := t) (c := c) (x := x) (fun _ => hxs) d
    have hself : (Function.update t.data c x c).started = true := by rwa [Function.update_self]
    simp only [List.mem_append, List.mem_singleton] at hd
    dsimp only at hd ⊢
    grind
  · rw [Data.owned, hxw, List.append_nil, Option.mem_toList, hx] at hd
    exact update_started (fun _ => hxs) d (h1.used d (.inr (.inl hd)))
  · dsimp only
    rw [List.mem_cons, Function.update_apply]
    split
    · next hd => simp [hd, hxs, hxc]
    · next hd => simp [hd, h1.listed d]
  · refine List.nodup_cons.mpr ⟨fun hmem => ?_, h1.nodup⟩
    rw [((h1.listed c).mp hmem).1] at hns
    cases hns
  · have hsum := t.awaiting_update hlt x d
    rw [hwait, hxw] at hsum
    simp only [List.count_nil, ite_self, Nat.add_zero] at hsum
    change (t.queue ++ [c]).count d + t.current.toList.count d +
      Table.awaiting { t with data := Function.update t.data c x } d ≤
        if (Function.update t.data c x d).complete then 0 else 1
    rw [hsum, List.count_append, Function.update_apply]
    split
    · next hd =>
        have hzero := h1.tokens_eq_zero hns
        rw [hd, hxc, List.count_singleton_self]
        unfold Table.tokens at hzero
        simp only [Bool.false_eq_true, if_false]
        omega
    · next hd =>
        rw [List.count_singleton, if_neg (by simpa using Ne.symm hd)]
        exact h1.single d
  · rw [henv] at hoff
    cases hoff

/-- The token of the running process becomes a completion token of `p`. -/
theorem await (h1 : Sound t) (hc : t.current = some c) (hs : (t.data p).started = true)
    (hcomp : (t.data p).complete = false)
    (hx : x = { t.data p with waiters := (t.data p).waiters ++ [c] }) :
    Sound { t with data := Function.update t.data p x, current := none } := by
  have hlt := h1.lt (.inl hs)
  have hok := h1.data p hlt
  have hcs := h1.used c (.inr (.inl hc))
  have hxs : x.started = true := by rw [hx]; exact hs
  have hxc : x.complete = false := by rw [hx]; exact hcomp
  refine
    { data := h1.update_data ⟨?_, ?_, fun _ => ?_⟩
      new := h1.update_new hlt
      used := fun d hd => ?_
      owned := h1.update_owned (fun _ => hxs) fun d hd => ?_
      listed := fun d => ?_
      nodup := h1.nodup
      single := fun d => ?_
      closed := fun hoff => ⟨rfl, (h1.closed hoff).2⟩ }
  · rw [hxs]
    exact nofun
  · rw [hx]
    exact hok.destroyed
  · rw [hx]
    exact hok.complete hs
  · apply update_started fun _ => hxs
    have hold := h1.used d
    dsimp only at hd
    grind
  · apply update_started fun _ => hxs
    rw [hx] at hd
    have hold := h1.owned d p
    simp only [Data.owned, List.mem_append, List.mem_singleton] at hd hold
    grind
  · dsimp only
    rw [h1.listed d, Function.update_apply]
    split
    · next hd => rw [hd, hxs, hxc, hs, hcomp]
    · rfl
  · have hsum := t.awaiting_update hlt x d
    have hle := h1.single d
    rw [hxc, hcomp, if_pos rfl, if_pos rfl, hx, List.count_append] at hsum
    rw [Table.tokens, hc, Option.toList_some] at hle
    change t.queue.count d + 0 + Table.awaiting { t with data := Function.update t.data p x } d ≤
      if (Function.update t.data p x d).complete then 0 else 1
    have hsame : (Function.update t.data p x d).complete = (t.data d).complete := by
      rw [Function.update_apply]
      split
      · next hd => rw [hd, hxc, hcomp]
      · rfl
    rw [hsame]
    rw [hx]
    omega

/-- The running process ends. -/
theorem finish {cause : Cause} (h1 : Sound t) (hc : t.current = some c)
    (hx : x = { t.data c with
      waiters := [], complete := true, frame := false,
      destroyedBy := (t.data c).destroyedBy ++ [cause] }) :
    Sound { t with
      data := Function.update t.data c x
      queue := t.queue ++ (t.data c).waiters
      coroutines := t.coroutines.erase c
      current := none } := by
  have hs := h1.used c (.inr (.inl hc))
  have hlt := h1.lt (.inl hs)
  have hok := h1.data c hlt
  obtain ⟨hcomp, hframe⟩ := h1.of_current hc
  have hxs : x.started = true := by rw [hx]; exact hs
  have hxc : x.complete = true := by rw [hx]
  refine
    { data := h1.update_data ⟨?_, ?_, fun _ => ?_⟩
      new := h1.update_new hlt
      used := fun d hd => ?_
      owned := h1.update_owned (fun _ => hxs) fun d hd => ?_
      listed := fun d => ?_
      nodup := h1.nodup.erase c
      single := fun d => ?_
      closed := fun hoff => ?_ }
  · rw [hxs]
    exact nofun
  · have hdestroyed := hok.destroyed
    rw [hframe] at hdestroyed
    rw [hx, List.length_append, hdestroyed]
    rfl
  · rw [hx]
    rfl
  · apply update_started fun _ => hxs
    have hold := h1.used d
    have hwait : d ∈ (t.data c).waiters → (t.data d).started = true := fun hd =>
      h1.owned d c (List.mem_append_right _ hd)
    simp only [List.mem_append, reduceCtorEq, false_or] at hd
    grind
  · apply update_started fun _ => hxs
    rw [Data.owned, hx, List.append_nil] at hd
    exact h1.owned d c (List.mem_append_left _ hd)
  · dsimp only
    rw [h1.nodup.mem_erase_iff, h1.listed d, Function.update_apply]
    split
    · next hd => simp [hd, hxc]
    · next hd => simp [hd]
  · have hsum := t.awaiting_update hlt x d
    have hle := h1.single d
    rw [hxc, hcomp, if_pos rfl, if_neg nofun] at hsum
    rw [Table.tokens, hc, Option.toList_some] at hle
    change (t.queue ++ (t.data c).waiters).count d + 0 +
      Table.awaiting { t with data := Function.update t.data c x } d ≤
        if (Function.update t.data c x d).complete then 0 else 1
    rw [List.count_append, Function.update_apply]
    split
    · next hd =>
        rw [hd, List.count_singleton_self, hcomp] at hle
        rw [hd] at hsum ⊢
        simp only [Bool.false_eq_true, if_false] at hle
        omega
    · omega
  · have henv := h1.env_of_current hc
    rw [henv] at hoff
    cases hoff

/-- The frame of a process that has not been started is destroyed. -/
theorem discard {cause : Cause} (h1 : Sound t) (hns : (t.data c).started = false)
    (hf : (t.data c).frame = true)
    (hx : x = { t.data c with
      frame := false, destroyedBy := (t.data c).destroyedBy ++ [cause] }) :
    Sound { t with data := Function.update t.data c x } := by
  have hlt := h1.lt (.inr hf)
  obtain ⟨hcomp, hown⟩ := h1.idle hns
  have hxs : x.started = (t.data c).started := by rw [hx]
  have hxc : x.complete = (t.data c).complete := by rw [hx]
  have hxo : x.owned = [] := by rw [← hown, hx]; rfl
  have hxw : x.waiters = (t.data c).waiters := by rw [hx]
  have hsame : ∀ d, (Function.update t.data c x d).started = (t.data d).started ∧
      (Function.update t.data c x d).complete = (t.data d).complete := fun d => by
    rw [Function.update_apply]
    split
    · next hd => rw [hd, hxs, hxc]; exact ⟨rfl, rfl⟩
    · exact ⟨rfl, rfl⟩
  refine
    { data := h1.update_data ⟨fun _ => ?_, ?_, fun hs => ?_⟩
      new := h1.update_new hlt
      used := fun d hd => (hsame d).1 ▸ h1.used d hd
      owned := h1.update_owned (fun hs => hxs ▸ hs) fun d hd => ?_
      listed := fun d => ?_
      nodup := h1.nodup
      single := fun d => ?_
      closed := h1.closed }
  · exact ⟨hxc.trans hcomp, hxo⟩
  · have hdestroyed := (h1.data c hlt).destroyed
    rw [hf] at hdestroyed
    rw [hx, List.length_append, hdestroyed]
    rfl
  · rw [hxs, hns] at hs
    cases hs
  · rw [hxo] at hd
    cases hd
  · dsimp only
    rw [(hsame d).1, (hsame d).2]
    exact h1.listed d
  · have hsum := t.awaiting_update hlt x d
    rw [hxc, hxw] at hsum
    dsimp only
    rw [(hsame d).2]
    have hle := h1.single d
    unfold Table.tokens at hle ⊢
    dsimp only
    omega

/-- A new process. -/
theorem newCoroutine (h1 : Sound t) :
    Sound { t with
      data := Function.update t.data t.nextData { frame := true }
      nextData := t.nextData + 1 } := by
  have hold := h1.new t.nextData (Nat.le_refl _)
  have hsame : ∀ d, (Function.update t.data t.nextData { frame := true } d).started =
      (t.data d).started ∧ (Function.update t.data t.nextData { frame := true } d).complete =
      (t.data d).complete ∧ (Function.update t.data t.nextData { frame := true } d).parent =
      (t.data d).parent ∧ (Function.update t.data t.nextData { frame := true } d).waiters =
      (t.data d).waiters := fun d => by
    rw [Function.update_apply]
    split
    · next hd => rw [hd, hold]; exact ⟨rfl, rfl, rfl, rfl⟩
    · exact ⟨rfl, rfl, rfl, rfl⟩
  refine
    { data := fun d hd => ?_
      new := fun d hd => ?_
      used := fun d hd => (hsame d).1 ▸ h1.used d hd
      owned := fun d e hd => ?_
      listed := fun d => ?_
      nodup := h1.nodup
      single := fun d => ?_
      closed := h1.closed }
  · dsimp only
    rw [Function.update_apply]
    split
    · exact ⟨fun _ => ⟨rfl, rfl⟩, rfl, nofun⟩
    · next hne => exact h1.data d (Nat.lt_of_le_of_ne (Nat.le_of_lt_succ hd) hne)
  · have hne : d ≠ t.nextData := Nat.ne_of_gt hd
    dsimp only
    rw [Function.update_of_ne hne]
    exact h1.new d (Nat.le_of_succ_le hd)
  · rw [Data.owned, (hsame e).2.2.1, (hsame e).2.2.2] at hd
    exact (hsame d).1 ▸ h1.owned d e hd
  · dsimp only
    rw [(hsame d).1, (hsame d).2.1]
    exact h1.listed d
  · dsimp only
    rw [(hsame d).2.1]
    refine Nat.le_trans (Nat.le_of_eq ?_) (h1.single d)
    have hnew : (t.data t.nextData).waiters = [] := by rw [hold]
    unfold Table.tokens Table.awaiting internal
    simp only [(hsame _).2.1, (hsame _).2.2.2]
    rw [Finset.sum_range_succ, hnew]
    simp

end Sound

/-! ### `reset()` -/

/-- What `destroy()` makes of a process. -/
def Data.destroyed (d : Data) : Data :=
  { d with complete := true, frame := false, destroyedBy := d.destroyedBy ++ [.reset] }

/-- The processes of `l` are destroyed. -/
def Table.destroyed (t : Table) (l : List CoroId) : Table :=
  { t with data := fun c => if c ∈ l then (t.data c).destroyed else t.data c }

/-- Every process that is listed is incomplete and has its frame, so that `reset()` can
destroy it. -/
theorem Store.destroyAll_ok {l : List CoroId} {s : Store} (hl : l.Nodup)
    (hok : ∀ c ∈ l, (s.data c).complete = false ∧ (s.data c).frame = true) :
    ∃ s', Store.destroyAll l s = .ok s' ∧ s'.handles = s.handles ∧ s'.nextHandle = s.nextHandle ∧
      s'.toTable = s.toTable.destroyed l := by
  induction l generalizing s with
  | nil => exact ⟨s, rfl, rfl, rfl, by simp [Table.destroyed]⟩
  | cons c l ih =>
      obtain ⟨hnotin, hl⟩ := List.nodup_cons.mp hl
      obtain ⟨hcomp, hframe⟩ := hok c (List.mem_cons_self ..)
      have hdestroy : s.destroy c = .ok ((s.setData c (s.data c).destroyed).unref [c]) := by
        have hdata : (s.setData c { s.data c with complete := true }).data c =
          { s.data c with complete := true } := Function.update_self ..
        unfold Store.destroy Store.destroyFrame
        rw [hdata, if_pos hframe]
        simp only [Store.setData, Function.update_idem, Data.destroyed]
      have hdata : ∀ d, ((s.setData c (s.data c).destroyed).unref [c]).data d =
          if d = c then (s.data c).destroyed else s.data d := fun d => Function.update_apply ..
      have hrest : ∀ d ∈ l,
          (((s.setData c (s.data c).destroyed).unref [c]).data d).complete = false ∧
          (((s.setData c (s.data c).destroyed).unref [c]).data d).frame = true := fun d hd => by
        rw [hdata, if_neg fun he : d = c => hnotin (he ▸ hd)]
        exact hok d (List.mem_cons_of_mem _ hd)
      obtain ⟨s', hs', hhandles, hlast, htable⟩ := ih hl hrest
      refine ⟨s', ?_, hhandles, hlast, ?_⟩
      · unfold Store.destroyAll
        rw [hcomp, if_neg Bool.false_ne_true, hdestroy]
        exact hs'
      · have hfun : (((s.setData c (s.data c).destroyed).unref [c]).toTable.destroyed l).data =
            (s.toTable.destroyed (c :: l)).data := by
          funext d
          simp only [Table.destroyed, hdata, List.mem_cons]
          cases decEq d c with
          | isTrue hd => simp [hd, hnotin]
          | isFalse hd => simp [hd]
        rw [htable]
        exact congrArg (fun f => { s.toTable with data := f }) hfun

/-- `reset()` destroys what is listed, and there is nothing left to do. -/
theorem Store.reset_ok {s : Store} (h1 : Sound s.toTable) :
    ∃ s', s.reset = .ok s' ∧ s'.handles = s.handles ∧ s'.nextHandle = s.nextHandle ∧
      s'.toTable = { s.toTable.destroyed s.coroutines with coroutines := [], queue := [] } := by
  obtain ⟨t, ht, hhandles, hlast, htable⟩ := Store.destroyAll_ok
    (s := { s with coroutines := [] }) h1.nodup fun c hc => h1.of_listed hc
  refine ⟨({ t with queue := [] }.unref t.queue).unref s.coroutines,
    by rw [Store.reset, ht]; rfl, hhandles, hlast, ?_⟩
  change { t.toTable with queue := [] } = _
  rw [htable]
  rfl

namespace Sound

theorem reset {env : Bool} (h1 : Sound t) (hnone : t.current = none) :
    Sound { t.destroyed t.coroutines with coroutines := [], queue := [], env := env } := by
  have hstarted : ∀ d, ((t.destroyed t.coroutines).data d).started = (t.data d).started :=
    fun d => by
      unfold Table.destroyed
      dsimp only
      split <;> rfl
  have howned : ∀ d, ((t.destroyed t.coroutines).data d).owned = (t.data d).owned :=
    fun d => by
      unfold Table.destroyed
      dsimp only
      split <;> rfl
  have hcomp : ∀ d, ((t.destroyed t.coroutines).data d).complete = (t.data d).started := fun d => by
    unfold Table.destroyed
    dsimp only
    cases hs : (t.data d).started with
    | false =>
        have hnot : d ∉ t.coroutines := fun hd => by
          rw [((h1.listed d).mp hd).1] at hs
          cases hs
        rw [if_neg hnot]
        exact (h1.idle hs).1
    | true =>
        cases hc : (t.data d).complete with
        | false => rw [if_pos ((h1.listed d).mpr ⟨hs, hc⟩)]; rfl
        | true =>
            split
            · rfl
            · exact hc
  refine
    { data := fun d hd => ?_
      new := fun d hd => ?_
      used := fun d hd => ?_
      owned := fun d e hd => ?_
      listed := fun d => ?_
      nodup := List.nodup_nil
      single := fun d => ?_
      closed := fun _ => ⟨hnone, rfl⟩ }
  · unfold Table.destroyed
    dsimp only
    split
    · next hmem =>
        have hdestroyed := (h1.data d hd).destroyed
        rw [(h1.of_listed hmem).2] at hdestroyed
        refine ⟨fun hs => ?_, ?_, fun _ => rfl⟩
        · rw [Data.destroyed, ((h1.listed d).mp hmem).1] at hs
          cases hs
        · rw [Data.destroyed, List.length_append, hdestroyed]
          rfl
    · exact h1.data d hd
  · have hnot : d ∉ t.coroutines := fun hmem =>
      Nat.not_lt_of_le hd (h1.lt (.inl ((h1.listed d).mp hmem).1))
    unfold Table.destroyed
    dsimp only
    rw [if_neg hnot]
    exact h1.new d hd
  · refine (hstarted d).trans (h1.used d ?_)
    cases hd with
    | inl hd => cases hd
    | inr hd => exact .inr hd
  · exact (hstarted d).trans (h1.owned d e (howned e ▸ hd))
  · refine iff_of_false (by simp) fun hd => ?_
    rw [hstarted, hcomp] at hd
    rw [hd.1] at hd
    cases hd.2
  · -- A process that is not complete has not been started, and names nobody.
    have hawait : Table.awaiting
        { t.destroyed t.coroutines with coroutines := [], queue := [], env := env } d = 0 :=
      internal_eq_zero fun e _ he hde => by
        dsimp only at he hde
        rw [hcomp, Bool.not_eq_true'] at he
        have hnil := (h1.idle he).2
        rw [← howned] at hnil
        have hmem : d ∈ ((t.destroyed t.coroutines).data e).owned := List.mem_append_right _ hde
        rw [hnil] at hmem
        cases hmem
    have hcurrent : (t.destroyed t.coroutines).current = none := hnone
    unfold Table.tokens
    rw [hawait]
    dsimp only
    rw [hcurrent]
    exact Nat.zero_le _

end Sound

end Cxxdes.Lifetime
