import DBEngine.Lib.PagedProgram

/-!
# What a run ends with

A run returns, or it raises.  `Ends` says of one run that it returns in a state of which
`post` is true, or raises an error of which `fails` is true; the rules follow the
program.  What is known of a part of the client state carries over to the whole.
-/

set_option autoImplicit false

namespace Paged.Prog

variable {F B E σ τ α β W : Type} {h : Store F B E W} {fails : E → Prop} {s s' : σ} {w w' : W}

/-- Run from this state the program returns as `post` says, or raises as `fails` says. -/
def Ends (h : Store F B E W) (fails : E → Prop) (p : Prog F B E σ α) (s : σ) (w : W)
    (post : α → σ → W → Prop) : Prop :=
  match p.run h s w with
  | (.ok a, s', w') => post a s' w'
  | (.error e, _, _) => fails e

variable {p : Prog F B E σ α} {post post' : α → σ → W → Prop} {a : α} {e : E}

theorem ends_of_run (hrun : p.run h s w = (.ok a, s', w')) (hpost : post a s' w') : p.Ends h fails s w post := by
  rw [Ends, hrun]
  exact hpost

theorem ends_of_error (hrun : p.run h s w = (.error e, s', w')) (he : fails e) : p.Ends h fails s w post := by
  rw [Ends, hrun]
  exact he

/-- The two ways in which such a run ends. -/
theorem Ends.cases (hp : p.Ends h fails s w post) :
    (∃ e s' w', p.run h s w = (.error e, s', w') ∧ fails e) ∨
      ∃ a s' w', p.run h s w = (.ok a, s', w') ∧ post a s' w' := by
  rw [Ends] at hp
  rcases hrun : p.run h s w with ⟨e | a, s', w'⟩
  · rw [hrun] at hp
    exact .inl ⟨e, s', w', rfl, hp⟩
  · rw [hrun] at hp
    exact .inr ⟨a, s', w', rfl, hp⟩

theorem Ends.of_ok (hp : p.Ends h fails s w post) (hrun : p.run h s w = (.ok a, s', w')) : post a s' w' := by
  rw [Ends, hrun] at hp
  exact hp

theorem Ends.mono (hp : p.Ends h fails s w post) (hpost : ∀ a s' w', post a s' w' → post' a s' w') :
    p.Ends h fails s w post' := by
  rcases hp.cases with ⟨e, s', w', hrun, he⟩ | ⟨a, s', w', hrun, ha⟩
  · exact ends_of_error hrun he
  · exact ends_of_run hrun (hpost a s' w' ha)

theorem Ends.imp {fails' : E → Prop} (hp : p.Ends h fails s w post) (hfails : ∀ e, fails e → fails' e) :
    p.Ends h fails' s w post := by
  rcases hp.cases with ⟨e, s', w', hrun, he⟩ | ⟨a, s', w', hrun, ha⟩
  · exact ends_of_error hrun (hfails e he)
  · exact ends_of_run hrun ha

/-- Two runs that are the same. -/
theorem ends_of_eq {q : Prog F B E σ α} (heq : p.run h s w = q.run h s' w') (hq : q.Ends h fails s' w' post) :
    p.Ends h fails s w post := by
  rw [Ends, heq]
  exact hq

theorem ends_pure (hpost : post a s w) : (pure a : Prog F B E σ α).Ends h fails s w post := hpost

theorem Ends.bind {f : α → Prog F B E σ β} {post' : β → σ → W → Prop} (hp : p.Ends h fails s w post)
    (hf : ∀ a s' w', post a s' w' → (f a).Ends h fails s' w' post') : (p >>= f).Ends h fails s w post' := by
  rcases hp.cases with ⟨e, s', w', hrun, he⟩ | ⟨a, s', w', hrun, ha⟩
  · exact ends_of_error (run_bind_error hrun) he
  · rw [Ends, run_bind_ok hrun]
    exact hf a s' w' ha

/-- A first part that returned. -/
theorem ends_step {f : α → Prog F B E σ β} {post' : β → σ → W → Prop} (hrun : p.run h s w = (.ok a, s', w'))
    (hf : (f a).Ends h fails s' w' post') : (p >>= f).Ends h fails s w post' := by
  rw [Ends, run_bind_ok hrun]
  exact hf

/-- A program on a part of the client state. -/
theorem Ends.zoom {view : τ → σ} {update : τ → σ → τ} (hview : ∀ t s, view (update t s) = s)
    (htwice : ∀ t s s', update (update t s) s' = update t s') (hsame : ∀ t, update t (view t) = t) {t : τ}
    {post : α → τ → W → Prop} (hp : p.Ends h fails (view t) w fun a s w => post a (update t s) w) :
    (p.zoom view update).Ends h fails t w post := by
  rcases hp.cases with ⟨e, s', w', hrun, he⟩ | ⟨a, s', w', hrun, ha⟩
  · exact ends_of_error (by rw [run_zoom hview htwice hsame, hrun]) he
  · exact ends_of_run (by rw [run_zoom hview htwice hsame, hrun]) ha

end Paged.Prog
