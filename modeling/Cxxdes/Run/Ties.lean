-- SUMMARY: Only ties leave the priority queue a choice: without them every implementation gives the same run.
import Cxxdes.Run.Current
import Cxxdes.Run.Deadline
import Cxxdes.Run.Yield

/-!
# Ties

`std::priority_queue` may have any of several equivalent tokens on top. If no two pending tokens
are equivalent whenever one is taken, then the token is determined, the bodies do the rest in turn,
and two implementations of the queue give the same run.
-/

namespace Cxxdes

variable {P : Program} {s s' s1 s2 : State P} {t u : TokenId}

/-- The heap is in order, no exception-only token is pending, and the tokens differ in time or
priority. -/
def State.Untied (s : State P) : Prop :=
  s.Plain ∧ ∀ t ∈ s.queue, ∀ u ∈ s.queue, s.due t = s.due u → t = u

instance (s : State P) : Decidable s.Untied :=
  inferInstanceAs (Decidable (_ ∧ ∀ t ∈ s.queue, ∀ u ∈ s.queue, s.due t = s.due u → t = u))

theorem State.IsTop.queue_ne (h : s.IsTop t) : s.queue ≠ [] :=
  List.ne_nil_of_mem h.1

/-- There is one token that can be on top. -/
theorem State.Untied.top_unique (h : s.Untied) (hk : s.KeysKept) (ht : s.IsTop t) (hu : s.IsTop u) :
    t = u :=
  h.2 t ht.1 u hu.1 (le_antisymm (ht.least h.1.1 hk h.1.2 u hu.1) (hu.least h.1.1 hk h.1.2 t ht.1))

/-- What is known of an environment whose bodies do not call `step()`. -/
structure Lone (s : State P) : Prop where
  tidy : s.Tidy False
  owned : ∃ gone own, Owned gone s own
  sole : s.Sole

namespace Lone

theorem step {l : Label P} (h : Lone s) (hl : ∀ t, l = .step t → s.current = none)
    (hstep : Step s l s') : Lone s' := by
  obtain ⟨gone, own, ho⟩ := h.owned
  obtain ⟨own', gone', ho', -⟩ := hstep.owned h.tidy ho
  exact ⟨hstep.tidy (fun hf => hf.elim) h.tidy, ⟨gone', own', ho'⟩, 
    hstep.sole h.tidy (fun t ht _ => hl t ht) h.sole⟩

theorem keysKept (h : Lone s) : s.KeysKept := by
  obtain ⟨gone, own, ho⟩ := h.owned
  exact ho.keys

end Lone

theorem Reachable.lone (h : Reachable (fun s l => ∀ t, l = .step t → s.current = none) s) :
    Lone s where
  tidy := h.sound.tidy
  owned := h.sound.owned
  sole := h.sole fun _ t hC _ => hC t rfl

/-- A body that has control is the only one. -/
theorem State.Sole.exec_unique {c d : CoroId} (h : s.Sole) (h1 : Step s (.exec c) s1)
    (h2 : Step s (.exec d) s2) : s1 = s2 := by
  cases h1 with
  | exec _ _ h1 =>
      cases h2 with
      | exec _ _ h2 =>
          obtain ⟨f, hf, -⟩ := exec_acted h1
          obtain ⟨g, hg, -⟩ := exec_acted h2
          obtain rfl := h.only hf hg
          exact Except.ok.inj (h1.symm.trans h2)

theorem State.Sole.exec_none {c : CoroId} (h : s.Sole) (hcur : s.current = none) :
    ¬ Step s (.exec c) s' := by
  intro hstep
  cases hstep with
  | exec _ _ hex =>
      obtain ⟨f, hf, -⟩ := exec_acted hex
      have hc := h c f hf
      rw [hcur] at hc
      cases hc

namespace State.Executes

/-- `step()` leaves the environment to the outside again. -/
theorem lone (h : s.Executes t s') (hs : Lone s) (hcur : s.current = none) : Lone s' := by
  obtain ⟨s0, hfirst, hruns⟩ := h.stepped
  refine hruns.invariant (I := Lone) ?_ (hs.step (fun _ _ => hcur) hfirst)
  rintro s l s' hs ⟨c, rfl⟩ hexec
  exact hs.step (fun _ heq => by cases heq) hexec

/-- What `step()` does with the token on top is determined. -/
theorem unique (h1 : s.Executes t s1) (h2 : s.Executes t s2) (hs : Lone s)
    (hcur : s.current = none) : s1 = s2 := by
  obtain ⟨a, hstep, hfits, hruns⟩ := h1.run
  obtain ⟨b, hstep', -, hruns'⟩ := h2.run
  obtain rfl := Except.ok.inj (hstep.symm.trans hstep')
  have ha : Lone a := hs.step (fun _ _ => hcur) (.step s t a h1.top hstep hfits)
  have hend : ∀ {s' : State P}, s.Executes t s' → ∀ (l : Label P) (u : State P),
      (∃ c, l = .exec c) → ¬ Step s' l u := by
    rintro s' hex l u ⟨c, rfl⟩
    exact (hex.lone hs hcur).sole.exec_none hex.back
  refine hruns.unique_end (I := Lone) ?_ ?_ hruns' ha (hend h1) (hend h2)
  · rintro s l s' hs ⟨c, rfl⟩ hexec
    exact hs.step (fun _ heq => by cases heq) hexec
  · rintro s l l' t t' hs ⟨c, rfl⟩ ⟨d, rfl⟩ hc hd
    exact hs.sole.exec_unique hc hd

end State.Executes

/-- The calls of two implementations of the priority queue, as long as there are no ties. -/
theorem RunUntil.agree {top top' : List (TokenId × List TokenId) → TokenId} {deadline : Int}
    {ops ops' : List (TokenId × List TokenId)} {log log' : List Turn} {o o' : Outcome P.Error}
    (h1 : RunUntil (fun s _ => s.Untied) top deadline ops s log o s1)
    (h2 : RunUntil (fun _ _ => True) top' deadline ops' s log' o' s2) (hs : Lone s)
    (hcur : s.current = none) : log = log' ∧ o = o' ∧ s1 = s2 := by
  -- the first call takes a token, and the second one takes the same
  have hsame : ∀ {s : State P} {t u : TokenId}, Lone s → s.Untied → s.IsTop t → s.IsTop u →
      t = u := fun hs hun ht hu => hun.top_unique hs.keysKept ht hu
  induction h1 generalizing log' o' s2 ops' with
  | empty ops s hq =>
      cases h2 with
      | empty => exact ⟨rfl, rfl, rfl⟩
      | stop _ _ htop => exact absurd hq htop.queue_ne
      | throws _ _ _ _ _ _ hex | turn _ _ _ _ _ _ _ _ hex => exact absurd hq hex.top.queue_ne
  | stop ops s htop hC hlt =>
      cases h2 with
      | empty _ _ hq => exact absurd hq htop.queue_ne
      | stop => exact ⟨rfl, rfl, rfl⟩
      | throws _ _ _ _ _ hle hex | turn _ _ _ _ _ _ _ hle hex =>
          rw [← hsame hs hC htop hex.top] at hle
          exact absurd hle (Int.not_le.mpr hlt)
  | throws ops s s1 e hC hle hex he =>
      cases h2 with
      | empty _ _ hq => exact absurd hq hex.top.queue_ne
      | stop _ _ htop _ hlt =>
          rw [← hsame hs hC hex.top htop] at hlt
          exact absurd hle (Int.not_le.mpr hlt)
      | throws _ _ s1' e' _ _ hex' he' =>
          have htop := hsame hs hC hex.top hex'.top
          rw [← htop] at hex' he' ⊢
          obtain rfl := hex.unique hex' hs hcur
          obtain rfl := Option.some.inj (he.symm.trans he')
          exact ⟨rfl, rfl, rfl⟩
      | turn _ _ s1' log' o' _ _ _ hex' he' =>
          rw [← hsame hs hC hex.top hex'.top, he] at he'
          cases he'
  | turn ops s s1 log o s' hC hle hex he hr ih =>
      cases h2 with
      | empty _ _ hq => exact absurd hq hex.top.queue_ne
      | stop _ _ htop _ hlt =>
          rw [← hsame hs hC hex.top htop] at hlt
          exact absurd hle (Int.not_le.mpr hlt)
      | throws _ _ s1' e' _ _ hex' he' =>
          rw [← hsame hs hC hex.top hex'.top, he] at he'
          cases he'
      | turn _ _ s1' log' o' _ _ _ hex' _ hr' =>
          have htop := hsame hs hC hex.top hex'.top
          rw [← htop] at hex' hr' ⊢
          obtain rfl := hex.unique hex' hs hcur
          obtain ⟨rfl, ho, hst⟩ := ih hr' (hex.lone hs hcur) hex.back
          exact ⟨rfl, ho, hst⟩

/-- In every run in which bodies do not call `step()`, with exceptions and resets: if a call of
`run_until(deadline)` never looks at the top of a queue with a tie, with an exception-only token or
with a heap out of order, then the call has the same iterations, outcome and final state with every
priority queue. -/
theorem run_until_determined {top top' : List (TokenId × List TokenId) → TokenId} {deadline : Int}
    {log log' : List Turn} {o o' : Outcome P.Error}
    (h : Reachable (fun s l => ∀ t, l = .step t → s.current = none) s) (hcur : s.current = none)
    (h1 : RunUntil (fun s _ => s.Untied) top deadline [] s log o s1)
    (h2 : RunUntil (fun _ _ => True) top' deadline [] s log' o' s2) :
    log = log' ∧ o = o' ∧ s1 = s2 :=
  h1.agree h2 h.lone hcur

/-- With every queue `run_until(4)` resumes the composition at 3 and leaves the delay that ends
at 5. -/
theorem run_until_determined_relay :
    { log : List Turn | ∃ top o s', RunUntil (fun _ _ => True) top 4 [] relay.before log o s' } =
      { [relay.before.turn 5 relay.fired, relay.fired.turn 3 relay.behind] } := by
  have hone : RunUntil (fun s _ => s.Untied) relay.order 4 [] relay.before _ .returns _ :=
    relay.until_four (by decide +kernel) (by decide +kernel) (by decide +kernel)
  have hcur : relay.before.current = none := by decide +kernel
  refine Set.Subset.antisymm ?_ ?_
  · rintro log ⟨top, o, s', h⟩
    exact (run_until_determined relay.before_reachable hcur hone h).1.symm
  · rintro log rfl
    exact ⟨_, _, _, relay.until_four trivial trivial trivial⟩

end Cxxdes
