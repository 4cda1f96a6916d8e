-- SUMMARY: A process as a unique_coroutine instead of a shared one, and the functions of the environment that cannot tell the difference.
import Cxxdes.Run.Tokens

/-!
# Shared and unique processes

`async` gives a process a completion token that names no waiter. A unique process keeps
the last completion token only, so that the one of a later waiter takes its place, and a shared
process keeps both. `State.retype` maps an environment to the one in which a process is unique:
of its completion tokens the last one is left, and once it has ended its null token does not exist.
-/

namespace Cxxdes

/-- Process `coro` becomes unique. `null` is its null token once the process has ended, with the
time and the key that it has where nothing has scheduled it. -/
structure Retype where
  coro : CoroId
  null : Option TokenId := none
  time : Int := 0
  key : Key := ⟨0, 0, false⟩

/-- Every token but the null token. -/
def Retype.keeps (v : Retype) (t : TokenId) : Bool := decide (v.null ≠ some t)

variable {P : Program} {v : Retype}

/-! ### The map -/

def CoroData.retype (v : Retype) (c : CoroId) (d : CoroData P) : CoroData P :=
  if c = v.coro then
    { d with unique := true, completionTokens := d.completionTokens.getLast?.toList }
  else d

def Token.retype {E : Type} (v : Retype) (t : TokenId) (tkn : Token E) : Token E :=
  if v.null = some t then { tkn with time := v.time } else tkn

def State.retype (v : Retype) (s : State P) : State P :=
  { s with
    tokens := fun t => (s.tokens t).retype v t
    queue := s.queue.filter v.keeps
    coros := fun c => (s.coros c).retype v c
    scheduled := s.scheduled.filter v.keeps
    executed := s.executed.filter v.keeps
    pushed := fun t => if v.null = some t then v.key else s.pushed t }

/-- The process and the null token exist, and nothing holds the token any more. -/
structure Retype.Known (v : Retype) (s : State P) : Prop where
  coro : v.coro < s.nextCoro
  null : ∀ z, v.null = some z → z < s.nextToken ∧ ¬ s.Held z
  time : timeIntegral.Fits v.time

def State.withLegal (s : State P) (legal : Bool) : State P := { s with legal := legal }

/-- The heap of the environment `s'`, which lacks the null token. It is in order if that of `s` is,
and the other way round once the null token is not pending. -/
structure Retype.Heaps (v : Retype) (s s' : State P) : Prop where
  heaped : s.Heaped → s'.Heaped
  back : (∀ z, v.null = some z → z ∉ s.queue) → s'.Heaped → s.Heaped
  legal : v.null = none → s'.legal = s.legal

/-- `s'` is `s` with the process of `v` unique. -/
structure Retyped (v : Retype) (s s' : State P) : Prop where
  eq : ∃ legal, s' = (s.retype v).withLegal legal
  known : v.Known s
  heaps : v.Heaps s s'

/-! ### Fields -/

section
variable (d : CoroData P) (c : CoroId)

@[simp] theorem retype_void : (d.retype v c).void = d.void := by
  unfold CoroData.retype
  split <;> rfl

@[simp] theorem retype_latency : (d.retype v c).latency = d.latency := by
  unfold CoroData.retype
  split <;> rfl

@[simp] theorem retype_priority : (d.retype v c).priority = d.priority := by
  unfold CoroData.retype
  split <;> rfl

@[simp] theorem retype_env : (d.retype v c).env = d.env := by
  unfold CoroData.retype
  split <;> rfl

@[simp] theorem retype_status : (d.retype v c).status = d.status := by
  unfold CoroData.retype
  split <;> rfl

@[simp] theorem retype_returnValue : (d.retype v c).returnValue = d.returnValue := by
  unfold CoroData.retype
  split <;> rfl

@[simp] theorem retype_complete : (d.retype v c).complete = d.complete := by
  unfold CoroData.complete
  rw [retype_status]

theorem retype_of_ne (hc : c ≠ v.coro) : d.retype v c = d := if_neg hc

theorem retype_status_eq (st : Status P) :
    ({ d with status := st } : CoroData P).retype v c = { d.retype v c with status := st } := by
  unfold CoroData.retype
  split <;> rfl

theorem retype_value_eq (r : Option P.Value) :
    ({ d with returnValue := r } : CoroData P).retype v c =
      { d.retype v c with returnValue := r } := by
  unfold CoroData.retype
  split <;> rfl

theorem retype_clear :
    ({ d with completionTokens := [] } : CoroData P).retype v c =
      { d.retype v c with completionTokens := [] } := by
  unfold CoroData.retype
  split <;> rfl

theorem retype_env_eq (e : Binding) :
    ({ d with env := e } : CoroData P).retype v c = { d.retype v c with env := e } := by
  unfold CoroData.retype
  split <;> rfl

theorem retype_started (parent : Option CoroId) (priority : Int) (t : TokenId) :
    (d.started parent priority t).retype v c = (d.retype v c).started parent priority t := by
  unfold CoroData.retype
  split <;> rfl

/-- A unique process keeps the last one of its completion tokens. -/
theorem retype_completionToken (t : TokenId) :
    (d.completionToken t).retype v c = (d.retype v c).completionToken t := by
  unfold CoroData.retype CoroData.completionToken
  split
  · cases d.unique with
    | true => rfl
    | false => simp
  · rfl

theorem retype_called (f : P.Frame) (o : Options) (hc : c ≠ v.coro) :
    (CoroData.called f o).retype v c = .called f o := retype_of_ne _ _ hc

end

@[simp] theorem Token.retype_eptr {E : Type} (t : TokenId) (tkn : Token E) :
    (tkn.retype v t).eptr = tkn.eptr := by
  unfold Token.retype
  split <;> rfl

@[simp] theorem Token.retype_handler {E : Type} (t : TokenId) (tkn : Token E) :
    (tkn.retype v t).handler = tkn.handler := by
  unfold Token.retype
  split <;> rfl

@[simp] theorem Token.retype_coroData {E : Type} (t : TokenId) (tkn : Token E) :
    (tkn.retype v t).coroData = tkn.coroData := by
  unfold Token.retype
  split <;> rfl

theorem Token.retype_of_ne {E : Type} {t : TokenId} (tkn : Token E) (ht : v.null ≠ some t) :
    tkn.retype v t = tkn := if_neg ht

theorem Retype.keeps_of_ne {t : TokenId} (ht : v.null ≠ some t) : v.keeps t = true :=
  decide_eq_true ht

namespace Retype.Known

variable {s s' : State P}

theorem next (h : v.Known s) : v.null ≠ some s.nextToken := fun hz =>
  Nat.lt_irrefl _ (h.null s.nextToken hz).1

theorem unheld (h : v.Known s) {t : TokenId} (ht : s.Held t) : v.null ≠ some t := fun hz =>
  (h.null t hz).2 ht

theorem next_coro (h : v.Known s) : s.nextCoro ≠ v.coro := (Nat.ne_of_lt h.coro).symm

/-- Nothing takes hold of a token that exists. -/
theorem keep (h : v.Known s) (hc : s.nextCoro ≤ s'.nextCoro) (ht : s.nextToken ≤ s'.nextToken)
    (hheld : ∀ t < s.nextToken, s'.Held t → s.Held t) : v.Known s' where
  coro := Nat.lt_of_lt_of_le h.coro hc
  null z hz := by
    obtain ⟨hlt, hno⟩ := h.null z hz
    exact ⟨Nat.lt_of_lt_of_le hlt ht, fun hh => hno (hheld z hlt hh)⟩
  time := h.time

end Retype.Known

/-! ### Primitive updates -/

section
variable (s : State P)

theorem setCoro_retype (c : CoroId) (d : CoroData P) :
    (s.setCoro c d).retype v = (s.retype v).setCoro c (d.retype v c) := by
  have h : (fun c' => ((Function.update s.coros c d) c').retype v c') =
      Function.update (fun c' => (s.coros c').retype v c') c (d.retype v c) := by
    funext c'
    simp only [Function.update_apply]
    split
    · next hc => rw [hc]
    · rfl
  unfold State.setCoro State.retype
  simp only [h]

theorem setToken_retype {t : TokenId} (tkn : Token P.Error) (ht : v.null ≠ some t) :
    (s.setToken t tkn).retype v = (s.retype v).setToken t tkn := by
  have h : (fun t' => ((Function.update s.tokens t tkn) t').retype v t') =
      Function.update (fun t' => (s.tokens t').retype v t') t tkn := by
    funext t'
    simp only [Function.update_apply]
    split
    · next ht' =>
        rw [ht']
        exact Token.retype_of_ne _ ht
    · rfl
  unfold State.setToken State.retype
  simp only [h]

/-- A field of a token that is not its time. -/
theorem setEptr_retype (t : TokenId) (e : Exn P.Error) :
    (s.setToken t { s.tokens t with eptr := some e }).retype v =
      (s.retype v).setToken t { (s.retype v).tokens t with eptr := some e } := by
  have h : (fun t' => ((Function.update s.tokens t { s.tokens t with eptr := some e }) t').retype
      v t') = Function.update (fun t' => (s.tokens t').retype v t') t
        { (s.tokens t).retype v t with eptr := some e } := by
    funext t'
    simp only [Function.update_apply]
    split
    · next ht' =>
        rw [ht']
        unfold Token.retype
        split <;> rfl
    · rfl
  unfold State.setToken State.retype
  simp only [h]

theorem install_retype (t : TokenId) (hd : HandlerId) :
    (s.install t hd).retype v = (s.retype v).install t hd := by
  have h : (fun t' => ((Function.update s.tokens t { s.tokens t with handler := some hd })
      t').retype v t') = Function.update (fun t' => (s.tokens t').retype v t') t
        { (s.tokens t).retype v t with handler := some hd } := by
    funext t'
    simp only [Function.update_apply]
    split
    · next ht' =>
        rw [ht']
        unfold Token.retype
        split <;> rfl
    · rfl
  unfold State.install State.setToken State.retype
  simp only [h]

theorem newToken_retype (h : v.null ≠ some s.nextToken) (tkn : Token P.Error) :
    (s.newToken tkn).retype v = (s.retype v).newToken tkn := by
  have hset := setToken_retype s tkn h
  have htok := congrArg State.tokens hset
  simp only [State.setToken, State.retype] at htok
  unfold State.newToken State.retype
  simp only [htok]

/-- Scheduling, up to the heap. -/
theorem scheduleToken_retype {t : TokenId} (ht : v.null ≠ some t) (legal : Bool) :
    ((s.retype v).withLegal legal).scheduleToken t =
      ((s.scheduleToken t).retype v).withLegal
        (((s.retype v).withLegal legal).scheduleToken t).legal := by
  have hfilter : ∀ l : List TokenId, (l ++ [t]).filter v.keeps = l.filter v.keeps ++ [t] := by
    intro l
    rw [List.filter_append, List.filter_singleton, Retype.keeps_of_ne ht]
    rfl
  have hpushed : (fun u => if v.null = some u then v.key
      else Function.update s.pushed t (s.tokens t).key u) =
        Function.update (fun u => if v.null = some u then v.key else s.pushed u) t
          ((s.tokens t).retype v t).key := by
    funext u
    simp only [Function.update_apply]
    split
    · next hu =>
        have hut : u ≠ t := fun hut => ht (hut ▸ hu)
        rw [if_neg hut]
    · split
      · rw [Token.retype_of_ne _ ht]
      · rfl
  unfold State.scheduleToken State.withLegal State.retype
  simp only [hfilter, hpushed]

theorem newCoro_retype (h : s.nextCoro ≠ v.coro) (f : P.Frame) (o : Options) :
    (s.newCoro f o).retype v = (s.retype v).newCoro f o := by
  have hset := setCoro_retype (v := v) s s.nextCoro (.called f o)
  rw [retype_called _ f o h] at hset
  have hco := congrArg State.coros hset
  simp only [State.setCoro, State.retype] at hco
  unfold State.newCoro State.retype
  simp only [hco]

theorem newCompletion_retype (h : v.null ≠ some s.nextToken) (p : Handle) (cd : Option CoroId) :
    (s.newCompletion p cd).retype v = (s.retype v).newCompletion p cd := by
  have hprio : (s.retype v).returnPriority p = s.returnPriority p :=
    congrArg (resolvePriority p.retPriority) (retype_priority _ _)
  unfold State.newCompletion
  rw [hprio, setCoro_retype, newToken_retype s h, retype_completionToken]
  rfl

end

end Cxxdes
