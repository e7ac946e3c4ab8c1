import DBEngine.Lib.PinDiscipline

/-!
# Files that stay as they are

What a program leaves alone: the files that it makes no request about.  `SameOn` says
that two states of the flat store do not differ in the files of a set, so that what is
known of one of these files in the first state is known of it in the second.
-/

set_option autoImplicit false

namespace Paged

variable {F B E σ α : Type}

namespace Flat

/-- The files that `keep` is true of are the same in the two. -/
structure SameOn (keep : F → Prop) (w w' : Flat F B) : Prop where
  mem : ∀ k : F × Nat, keep k.1 → w'.mem k = w.mem k
  size : ∀ f, keep f → w'.size f = w.size f
  gone : ∀ f, keep f → (f ∈ w'.gone ↔ f ∈ w.gone)

variable {keep keep' : F → Prop} {w w' w'' : Flat F B} {f : F}

theorem SameOn.refl (keep : F → Prop) (w : Flat F B) : SameOn keep w w :=
  ⟨fun _ _ => rfl, fun _ _ => rfl, fun _ _ => Iff.rfl⟩

theorem SameOn.trans (h : SameOn keep w w') (h' : SameOn keep w' w'') : SameOn keep w w'' :=
  ⟨fun k hk => (h'.mem k hk).trans (h.mem k hk), fun f hf => (h'.size f hf).trans (h.size f hf),
    fun f hf => (h'.gone f hf).trans (h.gone f hf)⟩

theorem SameOn.mono (h : SameOn keep w w') (hsub : ∀ f, keep' f → keep f) : SameOn keep' w w' :=
  ⟨fun k hk => h.mem k (hsub _ hk), fun f hf => h.size f (hsub f hf), fun f hf => h.gone f (hsub f hf)⟩

theorem SameElsewhere.sameOn (h : SameElsewhere f w w') : SameOn (· ≠ f) w w' :=
  ⟨h.mem, h.size, fun _ _ => by rw [h.gone]⟩

variable [DecidableEq F]

/-- A program about one file, run over the careful store. -/
theorem sameOn_run {lim : Limits F B E} {p : Prog F B E σ α} {r : Except E α} {s s' : σ}
    (hp : p.Only fun r => r.file = f) (hrun : p.run (careful lim) s w = (r, s', w')) : SameOn (· ≠ f) w w' := by
  have hsame : SameElsewhere f w (p.run (careful lim) s w).2.2 := run_sameElsewhere hp s w
  rw [hrun] at hsame
  exact hsame.sameOn

theorem sameOn_forget (w : Flat F B) (f : F) : SameOn (· ≠ f) w (w.forget f) :=
  ⟨fun _ _ => rfl, fun _ _ => rfl, fun _ hg => by simp [forget, hg]⟩

end Flat

namespace Prog

variable [DecidableEq F] {P : Request F B → Prop} {n : Nat} {own post : Multiset (F × Nat)}

/-- The requests of a tidy program. -/
theorem Tidy.only {p : Prog F B E σ α} (hp : p.Tidy P n own post) : p.Only P := by
  induction p generalizing own with
  | done a => trivial
  | raise e => trivial
  | get next ih => exact fun s => ih s (hp s)
  | set s next ih => exact ih hp
  | ask r next ih => exact ⟨hp.1, fun x => ih x (hp.2.2 x)⟩

end Prog

end Paged
