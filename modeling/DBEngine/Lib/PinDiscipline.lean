import DBEngine.Lib.FlatStore

/-!
# Pin discipline

A program is tidy when, whatever the pages hold, it works only on pages it has
pinned itself, releases only pins of its own, and ends with the pins it should.
What each request does to a world is then enough to know what a whole run does.
For programs that find the pages to release on the pages themselves the careful
store takes the place of this: a run over it that does not end in a misuse has
released only what it had pinned.
-/

set_option autoImplicit false

namespace Paged

variable {F B E σ α β W W₁ W₂ : Type}

/-! ## Along a run -/

namespace Prog

/-- Every request that a run makes satisfies `P` in the world in which it is made. -/
def Throughout (h : Store F B E W) (P : Request F B → W → Prop) : Prog F B E σ α → σ → W → Prop
  | .done _, _, _ => True
  | .raise _, _, _ => True
  | .get next, s, w => (next s).Throughout h P s w
  | .set s next, _, w => next.Throughout h P s w
  | .ask r next, s, w => P r w ∧ ∀ x w', h r w = (.ok x, w') → (next x).Throughout h P s w'

end Prog

/-! ## Runs that may stop for want of room -/

/-- `Simulates`, except that the first store may also stop with the error `stop`. -/
def SimulatesUntil (h₁ : Store F B E W₁) (h₂ : Store F B E W₂) (misuse stop : E)
    (R : W₁ → W₂ → Prop) : Prop :=
  ∀ r w₁ w₂, R w₁ w₂ → (h₂ r w₂).1 = .error misuse ∨ (h₁ r w₁).1 = .error stop ∨
    ((h₁ r w₁).1 = (h₂ r w₂).1 ∧ R (h₁ r w₁).2 (h₂ r w₂).2)

theorem run_simulatesUntil {h₁ : Store F B E W₁} {h₂ : Store F B E W₂} {misuse stop : E}
    {R : W₁ → W₂ → Prop} (hsim : SimulatesUntil h₁ h₂ misuse stop R) (p : Prog F B E σ α) (s : σ)
    {w₁ : W₁} {w₂ : W₂} (hR : R w₁ w₂) :
    (p.run h₂ s w₂).1 = .error misuse ∨ (p.run h₁ s w₁).1 = .error stop ∨
      ((p.run h₁ s w₁).1 = (p.run h₂ s w₂).1 ∧ (p.run h₁ s w₁).2.1 = (p.run h₂ s w₂).2.1 ∧
        R (p.run h₁ s w₁).2.2 (p.run h₂ s w₂).2.2) := by
  induction p generalizing s w₁ w₂ with
  | done a => exact .inr (.inr ⟨rfl, rfl, hR⟩)
  | raise e => exact .inr (.inr ⟨rfl, rfl, hR⟩)
  | get next ih => exact ih s s hR
  | set s' next ih => exact ih s' hR
  | ask r next ih =>
      simp only [Prog.run]
      rcases hr₁ : h₁ r w₁ with ⟨x₁, w₁'⟩
      rcases hr₂ : h₂ r w₂ with ⟨x₂, w₂'⟩
      have hstep := hsim r w₁ w₂ hR
      rw [hr₁, hr₂] at hstep
      rcases hstep with rfl | rfl | ⟨rfl, hR'⟩
      · exact .inl rfl
      · exact .inr (.inl rfl)
      · cases x₁ with
        | error e => exact .inr (.inr ⟨rfl, rfl, hR'⟩)
        | ok x => exact ih x s hR'

/-- What holds of every request that the simulated store does not reject holds throughout a
run that ends without a misuse. -/
theorem Prog.throughout_of_simulatesUntil {h₁ : Store F B E W₁} {h₂ : Store F B E W₂}
    {misuse stop : E} {R : W₁ → W₂ → Prop} (hsim : SimulatesUntil h₁ h₂ misuse stop R)
    {P : Request F B → W₁ → Prop} (hP : ∀ r w₁ w₂, R w₁ w₂ → (h₂ r w₂).1 ≠ .error misuse → P r w₁)
    (p : Prog F B E σ α) (s : σ) {w₁ : W₁} {w₂ : W₂} (hR : R w₁ w₂)
    (hok : (p.run h₂ s w₂).1 ≠ .error misuse) : p.Throughout h₁ P s w₁ := by
  induction p generalizing s w₁ w₂ with
  | done a => trivial
  | raise e => trivial
  | get next ih => exact ih s s hR hok
  | set s' next ih => exact ih s' hR hok
  | ask r next ih =>
      have hanswer : (h₂ r w₂).1 ≠ .error misuse := by
        intro hbad
        refine hok ?_
        rcases hr : h₂ r w₂ with ⟨x, w₂'⟩
        obtain rfl : x = .error misuse := by rw [← hbad, hr]
        simp only [run, hr]
      refine ⟨hP r w₁ w₂ hR hanswer, fun x w₁' hx => ?_⟩
      rcases hsim r w₁ w₂ hR with hbad | hstop | ⟨hsame, hR'⟩
      · exact absurd hbad hanswer
      · rw [hx] at hstop
        exact absurd hstop (by simp)
      · rcases hr : h₂ r w₂ with ⟨y, w₂'⟩
        rw [hx, hr] at hsame hR'
        obtain rfl : Except.ok x = y := hsame
        simp only [run, hr] at hok
        exact ih x s hR' hok

namespace Flat

variable [DecidableEq F] {lim : Limits F B E}

/-- However many pins others hold, a careful client is answered as if there were none, or
there is no room for the page it fetches. -/
theorem leak_simulatesUntil (n : Nat) (lost : Multiset (F × Nat)) :
    SimulatesUntil (store lim) (careful { lim with capacity := n }) lim.misuse lim.full
      fun v w => v = w.leak lost := by
  rintro r _ w rfl
  rcases answer_leak lim n lost r w with hbad | ⟨k, rfl, hfull⟩ | hsame
  · exact .inl hbad
  · exact .inr (.inl (congrArg Prod.fst hfull))
  · exact .inr (.inr hsame)

end Flat

/-! ## Tidy programs -/

/-- The requests a program may make that has these pins and wants no more than `n`. -/
def Request.Allowed (n : Nat) (own : Multiset (F × Nat)) : Request F B → Prop
  | .fetch _ => own.card < n
  | .peek k => k ∈ own
  | .put k _ => k ∈ own
  | .unpin k _ => k ∈ own
  | .alloc _ => True
  | .flush _ => True
  | .remove _ => False

variable [DecidableEq F]

/-- The pins of the program after the request. -/
def Request.pinsAfter (own : Multiset (F × Nat)) : Request F B → Multiset (F × Nat)
  | .fetch k => k ::ₘ own
  | .unpin k _ => own.erase k
  | _ => own

namespace Prog

/-- Whatever the answers are, the program makes requests that satisfy `P` and are allowed
to it, and when it returns its pins have become `post`. -/
def Tidy (P : Request F B → Prop) (n : Nat) :
    Multiset (F × Nat) → Multiset (F × Nat) → Prog F B E σ α → Prop
  | own, post, .done _ => own = post
  | _, _, .raise _ => True
  | own, post, .get next => ∀ s, (next s).Tidy P n own post
  | own, post, .set _ next => next.Tidy P n own post
  | own, post, .ask r next => P r ∧ r.Allowed n own ∧ ∀ x, (next x).Tidy P n (r.pinsAfter own) post

variable {P : Request F B → Prop} {n : Nat} {own mid post : Multiset (F × Nat)}

theorem tidy_pure (a : α) : (pure a : Prog F B E σ α).Tidy P n own own := rfl

theorem tidy_raise (e : E) : (raise e : Prog F B E σ α).Tidy P n own post := trivial

theorem tidy_ofExcept (x : Except E α) : (ofExcept x : Prog F B E σ α).Tidy P n own own := by
  cases x with
  | ok a => exact rfl
  | error e => trivial

theorem tidy_request {r : Request F B} (hr : P r) (hallowed : r.Allowed n own) :
    (request r : Prog F B E σ r.Reply).Tidy P n own (r.pinsAfter own) :=
  ⟨hr, hallowed, fun _ => rfl⟩

theorem tidy_bind {p : Prog F B E σ α} {f : α → Prog F B E σ β} (hp : p.Tidy P n own mid)
    (hf : ∀ a, (f a).Tidy P n mid post) : (p >>= f).Tidy P n own post := by
  rw [bind_eq]
  induction p generalizing own with
  | done a =>
      obtain rfl : own = mid := hp
      exact hf a
  | raise e => trivial
  | get next ih => exact fun s => ih s (hp s)
  | set s next ih => exact ih hp
  | ask r next ih => exact ⟨hp.1, hp.2.1, fun x => ih x (hp.2.2 x)⟩

theorem tidy_inPlace [DecidableEq B] {k : F × Nat} {m : B → Except E α × B} (hk : k ∈ own)
    (hpeek : P (.peek k)) (hput : ∀ b, P (.put k b)) : (inPlace k m : Prog F B E σ α).Tidy P n own own := by
  refine tidy_bind (tidy_request hpeek hk) fun (b : B) => ?_
  split
  · exact tidy_ofExcept _
  · exact tidy_bind (tidy_request (hput (m b).2) hk) fun _ => tidy_ofExcept _

variable {h : Store F B E W} {I : Multiset (F × Nat) → W → Prop}

/-- What every allowed request keeps of the pins and the world, a tidy run keeps. -/
theorem run_tidy (hstep : ∀ (r : Request F B) own w x w', P r → r.Allowed n own → I own w →
      h r w = (.ok x, w') → I (r.pinsAfter own) w')
    {p : Prog F B E σ α} (hp : p.Tidy P n own post) {s s' : σ} {w w' : W} {a : α} (hw : I own w)
    (hrun : p.run h s w = (.ok a, s', w')) : I post w' := by
  induction p generalizing own s w with
  | done b =>
      obtain rfl : own = post := hp
      obtain rfl : w = w' := (Prod.mk.inj (Prod.mk.inj hrun).2).2
      exact hw
  | raise e => simp [run] at hrun
  | get next ih => exact ih s (hp s) hw hrun
  | set s₁ next ih => exact ih hp hw hrun
  | ask r next ih =>
      simp only [run] at hrun
      rcases hr : h r w with ⟨_ | x, w₁⟩
      · simp [hr] at hrun
      · rw [hr] at hrun
        exact ih x (hp.2.2 x) (hstep r own w x w₁ hp.1 hp.2.1 hw hr) hrun

/-- What is so before every allowed request is so throughout a tidy run. -/
theorem throughout_tidy (hstep : ∀ (r : Request F B) own w x w', P r → r.Allowed n own → I own w →
      h r w = (.ok x, w') → I (r.pinsAfter own) w')
    {Q : Request F B → W → Prop} (hQ : ∀ (r : Request F B) own w, r.Allowed n own → I own w → Q r w)
    {p : Prog F B E σ α} (hp : p.Tidy P n own post) (s : σ) {w : W} (hw : I own w) :
    p.Throughout h Q s w := by
  induction p generalizing own s w with
  | done b => trivial
  | raise e => trivial
  | get next ih => exact ih s (hp s) s hw
  | set s₁ next ih => exact ih hp s₁ hw
  | ask r next ih =>
      exact ⟨hQ r own w hp.2.1 hw, fun x w₁ hr =>
        ih x (hp.2.2 x) s (hstep r own w x w₁ hp.1 hp.2.1 hw hr)⟩

end Prog

end Paged
