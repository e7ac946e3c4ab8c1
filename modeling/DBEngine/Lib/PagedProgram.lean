import Mathlib.Logic.Basic

/-!
# Programs over pinned pages

A program that works on the pages of files through a page cache is a tree of
requests: fetch a page and pin it, read or change a pinned page in place,
release a pin, extend a file by a page, write a page through, remove a file.
Next to the pages it owns a client state (the fields of the objects in memory),
which, as in a language with exceptions, keeps what was assigned before an
error is raised.

A store answers requests over a world of its own.  One program can be run over
different stores; `run_simulates` carries one answer per request to whole runs,
and `run_invariant` does the same for a property of the world.
-/

set_option autoImplicit false

namespace Paged

/-- One request of a client.  Pages are addressed by file and number. -/
inductive Request (F B : Type) where
  /-- pin the page and return its block -/
  | fetch (k : F × Nat)
  /-- read the block of a page the client has pinned -/
  | peek (k : F × Nat)
  /-- change the block of a page the client has pinned, in place -/
  | put (k : F × Nat) (b : B)
  /-- release one pin; `dirty` says that the block was changed -/
  | unpin (k : F × Nat) (dirty : Bool)
  /-- extend the file by one page and return its number -/
  | alloc (f : F)
  /-- write the page through -/
  | flush (k : F × Nat)
  /-- delete the file -/
  | remove (f : F)

variable {F B E σ τ α β γ : Type}

/-- What a request returns. -/
def Request.Reply : Request F B → Type
  | .fetch _ => B
  | .peek _ => B
  | .put _ _ => Unit
  | .unpin _ _ => Bool
  | .alloc _ => Nat
  | .flush _ => Unit
  | .remove _ => Unit

/-- The file a request is about. -/
def Request.file : Request F B → F
  | .fetch k => k.1
  | .peek k => k.1
  | .put k _ => k.1
  | .unpin k _ => k.1
  | .alloc f => f
  | .flush k => k.1
  | .remove f => f

/-- A program with client state `σ`, errors `E` and result `α`. -/
inductive Prog (F B E σ α : Type) : Type where
  | done (a : α)
  | raise (e : E)
  | get (next : σ → Prog F B E σ α)
  | set (s : σ) (next : Prog F B E σ α)
  | ask (r : Request F B) (next : r.Reply → Prog F B E σ α)

namespace Prog

/-- Sequencing. -/
def bind : Prog F B E σ α → (α → Prog F B E σ β) → Prog F B E σ β
  | .done a, f => f a
  | .raise e, _ => .raise e
  | .get next, f => .get fun s => (next s).bind f
  | .set s next, f => .set s (next.bind f)
  | .ask r next, f => .ask r fun x => (next x).bind f

instance : Monad (Prog F B E σ) where
  pure := .done
  bind := bind

theorem bind_eq (p : Prog F B E σ α) (f : α → Prog F B E σ β) : p >>= f = p.bind f := rfl

theorem pure_eq (a : α) : (pure a : Prog F B E σ α) = .done a := rfl

/-- Run a pure computation that may stop with an error. -/
def ofExcept : Except E α → Prog F B E σ α
  | .ok a => .done a
  | .error e => .raise e

/-- Read the client state. -/
def read : Prog F B E σ σ := .get .done

/-- Change the client state. -/
def modify (f : σ → σ) : Prog F B E σ Unit := .get fun s => .set (f s) (.done ())

/-- Make one request. -/
def request (r : Request F B) : Prog F B E σ r.Reply := .ask r .done

/-- Run code on the block of a pinned page, in place.  When the code stops with
an error, what it had written stays written; a block that it leaves as it was is
not put back. -/
def inPlace [DecidableEq B] (k : F × Nat) (m : B → Except E α × B) : Prog F B E σ α := do
  let b : B ← request (.peek k)
  if (m b).2 = b then ofExcept (m b).1
  else do
    let _ ← request (.put k (m b).2)
    ofExcept (m b).1

/-- Run a program on a part of the client state. -/
def zoom (view : τ → σ) (update : τ → σ → τ) : Prog F B E σ α → Prog F B E τ α
  | .done a => .done a
  | .raise e => .raise e
  | .get next => .get fun t => (next (view t)).zoom view update
  | .set s next => .get fun t => .set (update t s) (next.zoom view update)
  | .ask r next => .ask r fun x => (next x).zoom view update

end Prog

/-! ## Stores and runs -/

/-- A store answers a request or raises an error, in a world `W`. -/
def Store (F B E W : Type) : Type := (r : Request F B) → W → Except E r.Reply × W

variable {W W₁ W₂ : Type}

/-- Run a program over a store. -/
def Prog.run (h : Store F B E W) : Prog F B E σ α → σ → W → Except E α × σ × W
  | .done a, s, w => (.ok a, s, w)
  | .raise e, s, w => (.error e, s, w)
  | .get next, s, w => (next s).run h s w
  | .set s next, _, w => next.run h s w
  | .ask r next, s, w =>
      match h r w with
      | (.ok x, w') => (next x).run h s w'
      | (.error e, w') => (.error e, s, w')

namespace Prog

variable {h : Store F B E W}

@[simp] theorem run_pure (a : α) (s : σ) (w : W) :
    (pure a : Prog F B E σ α).run h s w = (.ok a, s, w) := rfl

@[simp] theorem run_raise (e : E) (s : σ) (w : W) :
    (raise e : Prog F B E σ α).run h s w = (.error e, s, w) := rfl

@[simp] theorem run_read (s : σ) (w : W) :
    (read : Prog F B E σ σ).run h s w = (.ok s, s, w) := rfl

@[simp] theorem run_modify (f : σ → σ) (s : σ) (w : W) :
    (modify f : Prog F B E σ Unit).run h s w = (.ok (), f s, w) := rfl

@[simp] theorem run_ofExcept (x : Except E α) (s : σ) (w : W) :
    (ofExcept x : Prog F B E σ α).run h s w = (x, s, w) := by
  cases x <;> rfl

theorem run_request (r : Request F B) (s : σ) (w : W) :
    (request r : Prog F B E σ r.Reply).run h s w = ((h r w).1, s, (h r w).2) := by
  rcases hr : h r w with ⟨_ | x, w'⟩ <;> simp [request, run, hr]

theorem run_request_ok {r : Request F B} {x : r.Reply} {w w' : W} (hr : h r w = (.ok x, w')) (s : σ) :
    (request r : Prog F B E σ r.Reply).run h s w = (.ok x, s, w') := by
  rw [run_request, hr]

/-- A sequence runs its first part and, when that returned, its second. -/
theorem run_bind (p : Prog F B E σ α) (f : α → Prog F B E σ β) (s : σ) (w : W) :
    (p >>= f).run h s w = match p.run h s w with
      | (.ok a, s', w') => (f a).run h s' w'
      | (.error e, s', w') => (.error e, s', w') := by
  rw [bind_eq]
  induction p generalizing s w with
  | done a => rfl
  | raise e => rfl
  | get next ih => exact ih s s w
  | set s' next ih => exact ih s' w
  | ask r next ih =>
      simp only [bind, run]
      rcases h r w with ⟨_ | x, w'⟩
      · rfl
      · exact ih x s w'

theorem run_bind_ok {p : Prog F B E σ α} {f : α → Prog F B E σ β} {s s' : σ} {w w' : W} {a : α}
    (hp : p.run h s w = (.ok a, s', w')) : (p >>= f).run h s w = (f a).run h s' w' := by
  rw [run_bind, hp]

/-- The first part of a sequence taken as a step of its run. -/
theorem run_step {p : Prog F B E σ α} {f : α → Prog F B E σ β} {s s' : σ} {w w' : W} {a : α}
    {r : Except E β × σ × W} (hp : p.run h s w = (.ok a, s', w')) (hf : (f a).run h s' w' = r) :
    (p >>= f).run h s w = r :=
  (run_bind_ok hp).trans hf

theorem run_bind_error {p : Prog F B E σ α} {f : α → Prog F B E σ β} {s s' : σ} {w w' : W}
    {e : E} (hp : p.run h s w = (.error e, s', w')) :
    (p >>= f).run h s w = (.error e, s', w') := by
  rw [run_bind, hp]

/-- A sequence that returned went through its first part. -/
theorem of_run_bind_ok {p : Prog F B E σ α} {f : α → Prog F B E σ β} {s s' : σ} {w w' : W}
    {b : β} (hp : (p >>= f).run h s w = (.ok b, s', w')) :
    ∃ a s₁ w₁, p.run h s w = (.ok a, s₁, w₁) ∧ (f a).run h s₁ w₁ = (.ok b, s', w') := by
  rw [run_bind] at hp
  rcases hr : p.run h s w with ⟨_ | a, s₁, w₁⟩
  · simp [hr] at hp
  · exact ⟨a, s₁, w₁, rfl, by simpa [hr] using hp⟩

theorem bind_assoc (p : Prog F B E σ α) (f : α → Prog F B E σ β) (g : β → Prog F B E σ γ) :
    (p >>= f) >>= g = p >>= fun a => f a >>= g := by
  simp only [bind_eq]
  induction p with
  | done a => rfl
  | raise e => rfl
  | get next ih => exact congrArg Prog.get (funext fun s => ih s)
  | set s next ih => exact congrArg (Prog.set s) ih
  | ask r next ih => exact congrArg (Prog.ask r) (funext fun x => ih x)

/-- A program on a part of the client state runs as it does alone and changes
only that part. -/
theorem run_zoom {view : τ → σ} {update : τ → σ → τ}
    (hview : ∀ t s, view (update t s) = s) (htwice : ∀ t s s', update (update t s) s' = update t s')
    (hsame : ∀ t, update t (view t) = t) (p : Prog F B E σ α) (t : τ) (w : W) :
    (p.zoom view update).run h t w =
      ((p.run h (view t) w).1, update t (p.run h (view t) w).2.1, (p.run h (view t) w).2.2) := by
  induction p generalizing t w with
  | done a => simp [zoom, run, hsame]
  | raise e => simp [zoom, run, hsame]
  | get next ih => simp only [zoom, run]; exact ih (view t) t w
  | set s next ih =>
      simp only [zoom, run]
      rw [ih (update t s) w, hview]
      simp [htwice]
  | ask r next ih =>
      simp only [zoom, run]
      rcases h r w with ⟨_ | x, w'⟩
      · simp [hsame]
      · exact ih x t w'

/-! ## Footprints -/

/-- Every request the program can make satisfies `P`. -/
def Only (P : Request F B → Prop) : Prog F B E σ α → Prop
  | .done _ => True
  | .raise _ => True
  | .get next => ∀ s, (next s).Only P
  | .set _ next => next.Only P
  | .ask r next => P r ∧ ∀ x, (next x).Only P

variable {P : Request F B → Prop}

theorem only_pure (a : α) : (pure a : Prog F B E σ α).Only P := trivial

theorem only_raise (e : E) : (raise e : Prog F B E σ α).Only P := trivial

theorem only_read : (read : Prog F B E σ σ).Only P := fun _ => trivial

theorem only_modify (f : σ → σ) : (modify f : Prog F B E σ Unit).Only P := fun _ => trivial

theorem only_ofExcept (x : Except E α) : (ofExcept x : Prog F B E σ α).Only P := by
  cases x <;> trivial

theorem only_request {r : Request F B} (hr : P r) :
    (request r : Prog F B E σ r.Reply).Only P := ⟨hr, fun _ => trivial⟩

theorem only_bind {p : Prog F B E σ α} {f : α → Prog F B E σ β} (hp : p.Only P)
    (hf : ∀ a, (f a).Only P) : (p >>= f).Only P := by
  rw [bind_eq]
  induction p with
  | done a => exact hf a
  | raise e => trivial
  | get next ih => exact fun s => ih s (hp s)
  | set s next ih => exact ih hp
  | ask r next ih => exact ⟨hp.1, fun x => ih x (hp.2 x)⟩

theorem only_inPlace [DecidableEq B] {k : F × Nat} {m : B → Except E α × B} (hpeek : P (.peek k))
    (hput : ∀ b, P (.put k b)) : (inPlace k m : Prog F B E σ α).Only P := by
  refine only_bind (only_request hpeek) fun (b : B) => ?_
  split
  · exact only_ofExcept _
  · exact only_bind (only_request (hput (m b).2)) fun _ => only_ofExcept _

theorem only_zoom {view : τ → σ} {update : τ → σ → τ} {p : Prog F B E σ α} (hp : p.Only P) :
    (p.zoom view update).Only P := by
  induction p with
  | done a => trivial
  | raise e => trivial
  | get next ih => exact fun t => ih (view t) (hp (view t))
  | set s next ih => exact fun _ => ih hp
  | ask r next ih => exact ⟨hp.1, fun x => ih x (hp.2 x)⟩

theorem Only.mono {Q : Request F B → Prop} {p : Prog F B E σ α} (hp : p.Only P)
    (hPQ : ∀ r, P r → Q r) : p.Only Q := by
  induction p with
  | done a => trivial
  | raise e => trivial
  | get next ih => exact fun s => ih s (hp s)
  | set s next ih => exact ih hp
  | ask r next ih => exact ⟨hPQ r hp.1, fun x => ih x (hp.2 x)⟩

/-- A property of the world that every allowed request keeps is kept by a run. -/
theorem run_invariant {I : W → Prop} (hstep : ∀ r w, P r → I w → I (h r w).2)
    {p : Prog F B E σ α} (hp : p.Only P) (s : σ) {w : W} (hw : I w) : I (p.run h s w).2.2 := by
  induction p generalizing s w with
  | done a => exact hw
  | raise e => exact hw
  | get next ih => exact ih s (hp s) s hw
  | set s' next ih => exact ih hp s' hw
  | ask r next ih =>
      have hI := hstep r w hp.1 hw
      simp only [run]
      rcases hr : h r w with ⟨_ | x, w'⟩
      · simpa [hr] using hI
      · exact ih x (hp.2 x) s (by simpa [hr] using hI)

/-- Every request the program can make satisfies `P`, and along every path the
requests cost at most `n` in all. -/
def Within (P : Request F B → Prop) (cost : Request F B → Nat) :
    Nat → Prog F B E σ α → Prop
  | _, .done _ => True
  | _, .raise _ => True
  | n, .get next => ∀ s, (next s).Within P cost n
  | n, .set _ next => next.Within P cost n
  | n, .ask r next => P r ∧ cost r ≤ n ∧ ∀ x, (next x).Within P cost (n - cost r)

variable {cost : Request F B → Nat}

theorem within_mono {p : Prog F B E σ α} {m n : Nat} (h : m ≤ n) (hp : p.Within P cost m) :
    p.Within P cost n := by
  induction p generalizing m n with
  | done a => trivial
  | raise e => trivial
  | get next ih => exact fun s => ih s h (hp s)
  | set s next ih => exact ih h hp
  | ask r next ih =>
      exact ⟨hp.1, Nat.le_trans hp.2.1 h, fun x => ih x (Nat.sub_le_sub_right h _) (hp.2.2 x)⟩

theorem within_bind {p : Prog F B E σ α} {f : α → Prog F B E σ β} {m n : Nat}
    (hp : p.Within P cost m) (hf : ∀ a, (f a).Within P cost n) :
    (p >>= f).Within P cost (m + n) := by
  rw [bind_eq]
  induction p generalizing m with
  | done a => exact within_mono (Nat.le_add_left n m) (hf a)
  | raise e => trivial
  | get next ih => exact fun s => ih s (hp s)
  | set s next ih => exact ih hp
  | ask r next ih =>
      obtain ⟨hr, hcost, hnext⟩ := hp
      refine ⟨hr, Nat.le_trans hcost (Nat.le_add_right m n), fun x => ?_⟩
      rw [Nat.sub_add_comm hcost]
      exact ih x (hnext x)

/-- Requests that cost nothing. -/
theorem Only.within {p : Prog F B E σ α} (hp : p.Only fun r => P r ∧ cost r = 0) :
    p.Within P cost 0 := by
  induction p with
  | done a => trivial
  | raise e => trivial
  | get next ih => exact fun s => ih s (hp s)
  | set s next ih => exact ih hp
  | ask r next ih =>
      obtain ⟨⟨hr, hcost⟩, hnext⟩ := hp
      exact ⟨hr, Nat.le_of_eq hcost, fun x => within_mono (Nat.zero_le _) (ih x (hnext x))⟩

theorem within_request (cost : Request F B → Nat) {r : Request F B} (hr : P r) :
    (request r : Prog F B E σ r.Reply).Within P cost (cost r) :=
  ⟨hr, Nat.le_refl _, fun _ => trivial⟩

/-- A property with a budget, which every allowed request keeps at its cost. -/
theorem run_within {I : Nat → W → Prop} (hmono : ∀ m n w, m ≤ n → I n w → I m w)
    (hstep : ∀ r n w, P r → I (n + cost r) w → I n (h r w).2) {p : Prog F B E σ α} {n m : Nat}
    (hp : p.Within P cost n) (s : σ) {w : W} (hw : I (m + n) w) : I m (p.run h s w).2.2 := by
  induction p generalizing n s w with
  | done a => exact hmono _ _ _ (Nat.le_add_right m n) hw
  | raise e => exact hmono _ _ _ (Nat.le_add_right m n) hw
  | get next ih => exact ih s (hp s) s hw
  | set s' next ih => exact ih hp s' hw
  | ask r next ih =>
      obtain ⟨hr, hcost, hnext⟩ := hp
      have hI : I (m + (n - cost r)) (h r w).2 := hstep r _ w hr (by
        rw [Nat.add_assoc, Nat.sub_add_cancel hcost]
        exact hw)
      simp only [run]
      rcases hres : h r w with ⟨_ | x, w'⟩
      · rw [hres] at hI
        exact hmono _ _ _ (Nat.le_add_right m _) hI
      · rw [hres] at hI
        exact ih x (hnext x) s hI

end Prog

/-! ## Simulation between stores -/

/-- The store `h₁` answers as `h₂` does, in related worlds, as long as `h₂` does
not report that the client broke the rules of the cache. -/
def Simulates (h₁ : Store F B E W₁) (h₂ : Store F B E W₂) (misuse : E) (R : W₁ → W₂ → Prop) :
    Prop :=
  ∀ r w₁ w₂, R w₁ w₂ →
    (h₂ r w₂).1 = .error misuse ∨ ((h₁ r w₁).1 = (h₂ r w₂).1 ∧ R (h₁ r w₁).2 (h₂ r w₂).2)

/-- Simulation of one request carries over to programs: the same result, the
same client state and related worlds. -/
theorem run_simulates {h₁ : Store F B E W₁} {h₂ : Store F B E W₂} {misuse : E}
    {R : W₁ → W₂ → Prop} (hsim : Simulates h₁ h₂ misuse R) (p : Prog F B E σ α) (s : σ)
    {w₁ : W₁} {w₂ : W₂} (hR : R w₁ w₂) :
    (p.run h₂ s w₂).1 = .error misuse ∨
      ((p.run h₁ s w₁).1 = (p.run h₂ s w₂).1 ∧ (p.run h₁ s w₁).2.1 = (p.run h₂ s w₂).2.1 ∧
        R (p.run h₁ s w₁).2.2 (p.run h₂ s w₂).2.2) := by
  induction p generalizing s w₁ w₂ with
  | done a => exact Or.inr ⟨rfl, rfl, hR⟩
  | raise e => exact Or.inr ⟨rfl, rfl, hR⟩
  | get next ih => exact ih s s hR
  | set s' next ih => exact ih s' hR
  | ask r next ih =>
      simp only [Prog.run]
      rcases hr₁ : h₁ r w₁ with ⟨x₁, w₁'⟩
      rcases hr₂ : h₂ r w₂ with ⟨x₂, w₂'⟩
      have hstep := hsim r w₁ w₂ hR
      rw [hr₁, hr₂] at hstep
      rcases hstep with hbad | ⟨hx, hR'⟩
      · simp only at hbad
        subst hbad
        exact Or.inl rfl
      · simp only at hx hR'
        subst hx
        cases x₁ with
        | error e => exact Or.inr ⟨rfl, rfl, hR'⟩
        | ok x => exact ih x s hR'

end Paged
