import Mathlib.Order.Lattice
import Mathlib.Algebra.GroupWithZero.Nat
import Mathlib.Data.List.Forall2

/-!
# Runs with separators between them

A sequence of runs with one separator between any two neighbours, as the level
of a search tree has them: `weave runs seps` is the sequence read in order.
`before` and `behind` are what stands before and behind one of the runs, so that
a run can be changed, or be cut in two, in its place.
-/

set_option autoImplicit false

namespace Runs

variable {α : Type*}

/-- Runs, each with the separator behind it. -/
def before : List (List α) → List α → List α
  | run :: runs, sep :: seps => run ++ sep :: before runs seps
  | _, _ => []

/-- Runs, each with the separator before it. -/
def behind : List α → List (List α) → List α
  | sep :: seps, run :: runs => sep :: (run ++ behind seps runs)
  | _, _ => []

/-- Runs with the separators between them. -/
def weave : List (List α) → List α → List α
  | [], _ => []
  | run :: runs, seps => run ++ behind seps runs

@[simp] theorem before_nil (seps : List α) : before [] seps = [] := by cases seps <;> rfl

@[simp] theorem behind_nil (seps : List α) : behind seps [] = [] := by cases seps <;> rfl

@[simp] theorem before_cons (run : List α) (runs : List (List α)) (sep : α) (seps : List α) :
    before (run :: runs) (sep :: seps) = run ++ sep :: before runs seps := rfl

@[simp] theorem behind_cons (run : List α) (runs : List (List α)) (sep : α) (seps : List α) :
    behind (sep :: seps) (run :: runs) = sep :: (run ++ behind seps runs) := rfl

variable {runs runs' : List (List α)} {seps seps' : List α} {run : List α} {sep : α}

theorem before_append (h : runs.length = seps.length) :
    before (runs ++ runs') (seps ++ seps') = before runs seps ++ before runs' seps' := by
  induction runs generalizing seps with
  | nil => simp [List.length_eq_zero_iff.mp h.symm]
  | cons r rs ih =>
      cases seps with
      | nil => simp at h
      | cons s ss => simp [ih (by simpa using h)]

/-- The runs before one that moves on by one run. -/
theorem before_concat (h : runs.length = seps.length) :
    before (runs ++ [run]) (seps ++ [sep]) = before runs seps ++ (run ++ [sep]) := by
  rw [before_append h]
  rfl

/-- What stands around one of the runs. -/
theorem weave_eq (h : runs.length = seps.length) :
    weave (runs ++ run :: runs') (seps ++ seps') = before runs seps ++ (run ++ behind seps' runs') := by
  cases runs with
  | nil => simp [List.length_eq_zero_iff.mp h.symm, weave]
  | cons r rs =>
      rw [List.cons_append, weave]
      induction rs generalizing r seps with
      | nil =>
          obtain ⟨s, rfl⟩ := List.length_eq_one_iff.mp h.symm
          simp
      | cons r' rs ih =>
          cases seps with
          | nil => simp at h
          | cons s ss =>
              have hrest := ih r' (show (r' :: rs).length = ss.length by simpa using h)
              simp only [List.cons_append, behind_cons, before_cons, hrest, List.append_assoc]

/-- A separator more, between the two parts of a run. -/
theorem weave_insert {run' : List α} (h : runs.length = seps.length) :
    weave (runs ++ run :: run' :: runs') (seps ++ sep :: seps') =
      weave (runs ++ (run ++ sep :: run') :: runs') (seps ++ seps') := by
  rw [weave_eq h, weave_eq h, behind_cons]
  simp

/-- As many separators as runs, less one. -/
theorem length_behind (h : runs.length = seps.length) :
    (behind seps runs).length = (runs.map fun r => r.length + 1).sum := by
  induction runs generalizing seps with
  | nil => simp
  | cons r rs ih =>
      cases seps with
      | nil => simp at h
      | cons s ss =>
          simp only [behind_cons, List.length_cons, List.length_append, List.map_cons, List.sum_cons,
            ih (by simpa using h)]
          omega

theorem length_before (h : runs.length = seps.length) :
    (before runs seps).length = (runs.map fun r => r.length + 1).sum := by
  induction runs generalizing seps with
  | nil => simp
  | cons r rs ih =>
      cases seps with
      | nil => simp at h
      | cons s ss =>
          simp only [before_cons, List.length_cons, List.length_append, List.map_cons, List.sum_cons,
            ih (by simpa using h)]
          omega

theorem length_weave (h : runs.length = seps.length + 1) :
    (weave runs seps).length + 1 = (runs.map fun r => r.length + 1).sum := by
  cases runs with
  | nil => simp at h
  | cons r rs =>
      rw [weave, List.length_append, length_behind (by simpa using h), List.map_cons, List.sum_cons]
      omega

/-- The separators are among what stands before a run. -/
theorem sublist_before (h : runs.length = seps.length) : seps.Sublist (before runs seps) := by
  induction runs generalizing seps with
  | nil => simp [List.length_eq_zero_iff.mp h.symm]
  | cons r rs ih =>
      cases seps with
      | nil => simp
      | cons s ss =>
          rw [before_cons]
          exact ((ih (by simpa using h)).cons_cons s).trans (List.sublist_append_right r _)

theorem sublist_behind (h : runs.length = seps.length) : seps.Sublist (behind seps runs) := by
  induction runs generalizing seps with
  | nil => simp [List.length_eq_zero_iff.mp h.symm]
  | cons r rs ih =>
      cases seps with
      | nil => simp
      | cons s ss =>
          rw [behind_cons]
          exact ((ih (by simpa using h)).trans (List.sublist_append_right r _)).cons_cons s

theorem sublist_weave (h : runs.length = seps.length + 1) : seps.Sublist (weave runs seps) := by
  cases runs with
  | nil => simp at h
  | cons r rs => exact (sublist_behind (by simpa using h)).trans (List.sublist_append_right r _)

/-- Two sequences of runs with a separator between them. -/
theorem weave_two (h : runs.length = seps.length + 1) (hne : runs' ≠ []) :
    weave (runs ++ runs') (seps ++ sep :: seps') = weave runs seps ++ sep :: weave runs' seps' := by
  obtain ⟨front, last, rfl⟩ : ∃ front last, runs = front ++ [last] :=
    ⟨runs.dropLast, runs.getLast (by rintro rfl; simp at h), (List.dropLast_append_getLast _).symm⟩
  obtain ⟨r, rs, rfl⟩ := List.exists_cons_of_ne_nil hne
  have hfront : front.length = seps.length := by simpa using h
  have hlower : weave (front ++ last :: []) (seps ++ []) = before front seps ++ (last ++ behind [] []) :=
    weave_eq hfront
  rw [List.append_nil] at hlower
  rw [List.append_assoc, List.singleton_append, weave_eq hfront, hlower]
  simp [weave]

theorem flatten_sublist_before (h : runs.length = seps.length) :
    runs.flatten.Sublist (before runs seps) := by
  induction runs generalizing seps with
  | nil => simp
  | cons r rs ih =>
      cases seps with
      | nil => simp at h
      | cons s ss =>
          rw [before_cons, List.flatten_cons]
          exact (List.Sublist.refl r).append ((ih (by simpa using h)).cons s)

theorem flatten_sublist_behind (h : runs.length = seps.length) :
    runs.flatten.Sublist (behind seps runs) := by
  induction runs generalizing seps with
  | nil => simp
  | cons r rs ih =>
      cases seps with
      | nil => simp at h
      | cons s ss =>
          rw [behind_cons, List.flatten_cons]
          exact ((List.Sublist.refl r).append (ih (by simpa using h))).cons s

theorem flatten_sublist_weave (h : runs.length = seps.length + 1) :
    runs.flatten.Sublist (weave runs seps) := by
  cases runs with
  | nil => simp at h
  | cons r rs =>
      rw [weave, List.flatten_cons]
      exact (List.Sublist.refl r).append (flatten_sublist_behind (by simpa using h))

/-- Longer runs make a longer sequence. -/
theorem weave_mono (h : List.Forall₂ List.Sublist runs runs') (seps : List α) :
    (weave runs seps).Sublist (weave runs' seps) := by
  have hbehind : ∀ {rs rs' : List (List α)}, List.Forall₂ List.Sublist rs rs' → ∀ ss : List α,
      (behind ss rs).Sublist (behind ss rs') := fun hrs => by
    induction hrs with
    | nil => simp
    | cons hr _ ih =>
        intro ss
        cases ss with
        | nil => simp [behind]
        | cons s ss =>
            rw [behind_cons, behind_cons]
            exact (hr.append (ih ss)).cons_cons s
  cases h with
  | nil => exact List.Sublist.refl _
  | cons hr hrs => exact hr.append (hbehind hrs seps)

/-! ## Levels of separators -/

/-- The runs under one level: each node of the level, given by its separators,
reads as many runs as it has separators and one more. -/
def weaveAll : List (List α) → List (List α) → List (List α)
  | [], _ => []
  | seps :: level, runs =>
      weave (runs.take (seps.length + 1)) seps :: weaveAll level (runs.drop (seps.length + 1))

/-- The runs under the lowest of some levels, read in order with all separators. -/
def read : List (List (List α)) → List (List α) → List α
  | [], runs => runs.flatten
  | level :: above, runs => read above (weaveAll level runs)

/-- The number of runs under a level. -/
def width (level : List (List α)) : Nat := (level.map fun seps => seps.length + 1).sum

variable {level level' lo : List (List α)}

@[simp] theorem width_nil : width ([] : List (List α)) = 0 := rfl

@[simp] theorem width_cons : width (seps :: level) = seps.length + 1 + width level := rfl

@[simp] theorem width_append : width (level ++ level') = width level + width level' := by
  simp [width]

theorem weaveAll_cons (h : runs.length = seps.length + 1) (runs' : List (List α)) :
    weaveAll (seps :: level) (runs ++ runs') = weave runs seps :: weaveAll level runs' := by
  rw [weaveAll, List.take_left' h, List.drop_left' h]

theorem weaveAll_append (h : runs.length = width level) :
    weaveAll (level ++ level') (runs ++ runs') = weaveAll level runs ++ weaveAll level' runs' := by
  induction level generalizing runs with
  | nil =>
      obtain rfl := List.length_eq_zero_iff.mp (show runs.length = 0 from h)
      rfl
  | cons seps level ih =>
      rw [width_cons] at h
      have hle : seps.length + 1 ≤ runs.length := by omega
      rw [List.cons_append, weaveAll, weaveAll, List.take_append_of_le_length hle,
        List.drop_append_of_le_length hle, ih (by rw [List.length_drop]; omega), List.cons_append]

@[simp] theorem length_weaveAll (level runs : List (List α)) :
    (weaveAll level runs).length = level.length := by
  induction level generalizing runs with
  | nil => rfl
  | cons seps level ih => simp [weaveAll, ih]

theorem flatten_sublist_weaveAll (h : runs.length = width level) :
    runs.flatten.Sublist (weaveAll level runs).flatten := by
  induction level generalizing runs with
  | nil => simp [List.length_eq_zero_iff.mp (by simpa using h)]
  | cons seps level ih =>
      rw [width_cons] at h
      rw [weaveAll, List.flatten_cons, ← List.take_append_drop (seps.length + 1) runs,
        List.flatten_append, List.take_append_drop]
      exact (flatten_sublist_weave (by rw [List.length_take]; omega)).append
        (ih (by rw [List.length_drop]; omega))

/-- A level around some of its nodes. -/
theorem weaveAll_middle {A₁ B₁ B₂ mid : List (List α)} (hlo : A₁.length = width lo)
    (hmid : (B₁ ++ (runs ++ B₂)).length = width mid) (hi A₂ : List (List α)) :
    weaveAll (lo ++ (mid ++ hi)) ((A₁ ++ B₁) ++ (runs ++ (B₂ ++ A₂))) =
      weaveAll lo A₁ ++ (weaveAll mid (B₁ ++ (runs ++ B₂)) ++ weaveAll hi A₂) := by
  have hruns : (A₁ ++ B₁) ++ (runs ++ (B₂ ++ A₂)) = A₁ ++ ((B₁ ++ (runs ++ B₂)) ++ A₂) := by simp
  rw [hruns, weaveAll_append hlo, weaveAll_append hmid]

theorem weaveAll_singleton (h : runs.length = seps.length + 1) :
    weaveAll [seps] runs = [weave runs seps] := by
  have hcons : weaveAll (seps :: []) (runs ++ []) = weave runs seps :: weaveAll [] [] := weaveAll_cons h []
  rwa [List.append_nil] at hcons

theorem weaveAll_mono (h : List.Forall₂ List.Sublist runs runs') (level : List (List α)) :
    List.Forall₂ List.Sublist (weaveAll level runs) (weaveAll level runs') := by
  induction level generalizing runs runs' with
  | nil => exact .nil
  | cons seps level ih =>
      exact .cons (weave_mono (List.forall₂_take _ h) seps) (ih (List.forall₂_drop _ h))

/-- Longer runs make a longer sequence. -/
theorem read_mono (h : List.Forall₂ List.Sublist runs runs') (levels : List (List (List α))) :
    (read levels runs).Sublist (read levels runs') := by
  induction levels generalizing runs runs' with
  | nil =>
      rw [read, read]
      induction h with
      | nil => exact List.Sublist.refl _
      | cons hr _ ih => exact hr.append ih
  | cons level above ih => exact ih (weaveAll_mono h level)

/-- Levels that end in one node, over so many runs. -/
def Fitted : Nat → List (List (List α)) → Prop
  | n, [] => n = 1
  | n, level :: above => n = width level ∧ Fitted level.length above

/-- Without runs a node reads its separators. -/
theorem weave_nils (n : Nat) (h : n = seps.length + 1) : weave (List.replicate n []) seps = seps := by
  subst h
  have hbehind : ∀ ss : List α, behind ss (List.replicate ss.length []) = ss := fun ss => by
    induction ss with
    | nil => rfl
    | cons s ss ih => rw [List.length_cons, List.replicate_succ, behind_cons, ih, List.nil_append]
  rw [List.replicate_succ, weave, hbehind, List.nil_append]

theorem weaveAll_nils (level : List (List α)) : weaveAll level (List.replicate (width level) []) = level := by
  induction level with
  | nil => rfl
  | cons seps level ih =>
      rw [width_cons, List.replicate_add, weaveAll_cons (by simp), ih, weave_nils _ rfl]

/-- The separators of a level and those above it, in order. -/
theorem weave_weaveAll (hruns : runs.length = width level) (hseps : level.length = seps.length + 1) :
    weave (weaveAll level runs) seps = weave runs (weave level seps) := by
  induction level generalizing runs seps with
  | nil => simp at hseps
  | cons here level ih =>
      rw [width_cons] at hruns
      have hX : (runs.take (here.length + 1)).length = here.length + 1 := by rw [List.length_take]; omega
      have hY : (runs.drop (here.length + 1)).length = width level := by rw [List.length_drop]; omega
      cases seps with
      | nil =>
          obtain rfl : level = [] := List.length_eq_zero_iff.mp (by simpa using hseps)
          rw [weaveAll, List.take_of_length_le (by simp at hruns; omega)]
          simp [weaveAll, weave]
      | cons sep seps =>
          obtain ⟨next, level, rfl⟩ : ∃ next rest, level = next :: rest :=
            List.exists_cons_of_ne_nil (by rintro rfl; simp at hseps)
          have hrest := ih hY (show (next :: level).length = seps.length + 1 by simpa using hseps)
          have hne : runs.drop (here.length + 1) ≠ [] := by
            intro hnil
            rw [hnil, width_cons] at hY
            simp at hY
            omega
          have hleft : weave (weaveAll (here :: next :: level) runs) (sep :: seps) =
              weave (runs.take (here.length + 1)) here ++
                sep :: weave (weaveAll (next :: level) (runs.drop (here.length + 1))) seps := rfl
          have hright : weave (here :: next :: level) (sep :: seps) =
              here ++ sep :: weave (next :: level) seps := rfl
          have hcut : weave (runs.take (here.length + 1) ++ runs.drop (here.length + 1))
                (here ++ sep :: weave (next :: level) seps) =
              weave (runs.take (here.length + 1)) here ++
                sep :: weave (runs.drop (here.length + 1)) (weave (next :: level) seps) := weave_two hX hne
          rw [List.take_append_drop] at hcut
          rw [hleft, hright, hrest, hcut]

/-- Runs read through levels are the runs with the separators of all levels between
them. -/
theorem read_eq_weave {levels : List (List (List α))} {n : Nat} (h : Fitted n levels) :
    n = (read levels (List.replicate n [])).length + 1 ∧ ∀ runs : List (List α), runs.length = n →
      read levels runs = weave runs (read levels (List.replicate n [])) := by
  induction levels generalizing n with
  | nil =>
      obtain rfl : n = 1 := h
      refine ⟨rfl, fun runs hruns => ?_⟩
      obtain ⟨run, rfl⟩ := List.length_eq_one_iff.mp hruns
      simp [read, weave]
  | cons level above ih =>
      obtain ⟨rfl, habove⟩ := h
      obtain ⟨hlength, hread⟩ := ih habove
      rw [read, weaveAll_nils, hread level rfl]
      refine ⟨(length_weave hlength).symm, fun runs hruns => ?_⟩
      rw [read, hread _ (length_weaveAll level runs), weave_weaveAll hruns hlength]

/-! ## Sorted sequences -/

section

variable [LinearOrder α] {k : α}

/-- Everything before a run is below a key that is above the separators. -/
theorem lt_of_mem_before (hsorted : (before runs seps).Pairwise (· ≤ ·)) (hseps : ∀ s ∈ seps, s < k) :
    ∀ x ∈ before runs seps, x < k := by
  induction runs generalizing seps with
  | nil => simp
  | cons r rs ih =>
      cases seps with
      | nil => simp [before]
      | cons s ss =>
          rw [before_cons] at hsorted ⊢
          obtain ⟨-, hrest, hle⟩ := List.pairwise_append.mp hsorted
          have hs : s < k := hseps s List.mem_cons_self
          intro x hx
          rcases List.mem_append.mp hx with hx | hx
          · exact lt_of_le_of_lt (hle x hx s List.mem_cons_self) hs
          · rcases List.mem_cons.mp hx with rfl | hx
            · exact hs
            · exact ih (List.pairwise_cons.mp hrest).2
                (fun t ht => hseps t (List.mem_cons_of_mem s ht)) x hx

/-- Everything behind a run is at least a key that no separator is below. -/
theorem le_of_mem_behind (hsorted : (behind seps runs).Pairwise (· ≤ ·)) (hseps : ∀ s ∈ seps, k ≤ s) :
    ∀ x ∈ behind seps runs, k ≤ x := by
  cases seps with
  | nil => simp [behind]
  | cons s ss =>
      cases runs with
      | nil => simp
      | cons r rs =>
          rw [behind_cons] at hsorted ⊢
          intro x hx
          have hs : k ≤ s := hseps s List.mem_cons_self
          rcases List.mem_cons.mp hx with rfl | hx
          · exact hs
          · exact le_trans hs ((List.pairwise_cons.mp hsorted).1 x hx)

/-- Every run stands between the separators on its two sides; the first one stands
above `lo`, when that is given. -/
def Between : Option α → List (List α) → List α → Prop
  | lo, [run], [] => ∀ x ∈ run, ∀ l ∈ lo, l ≤ x
  | lo, run :: runs, sep :: seps =>
      (∀ x ∈ run, (∀ l ∈ lo, l ≤ x) ∧ x ≤ sep) ∧ Between (some sep) runs seps
  | _, _, _ => False

/-- Sorted runs with separators between them are sorted when the separators are and
each run stands between its own. -/
theorem pairwise_weave_iff (lo : Option α) (hlength : runs.length = seps.length + 1)
    (hruns : ∀ run ∈ runs, run.Pairwise (· ≤ ·)) :
    (lo.toList ++ weave runs seps).Pairwise (· ≤ ·) ↔
      (lo.toList ++ seps).Pairwise (· ≤ ·) ∧ Between lo runs seps := by
  induction seps generalizing lo runs with
  | nil =>
      obtain ⟨run, rfl⟩ := List.length_eq_one_iff.mp hlength
      have hrun := hruns run List.mem_cons_self
      simp only [weave, behind, List.append_nil, Between, List.pairwise_append, Option.mem_toList]
      exact ⟨fun h => ⟨h.1, fun x hx l hl => h.2.2 l hl x hx⟩,
        fun h => ⟨h.1, hrun, fun l hl x hx => h.2 x hx l hl⟩⟩
  | cons sep seps ih =>
      obtain ⟨run, runs, rfl⟩ := List.exists_cons_of_length_eq_add_one hlength
      obtain ⟨next, rest, rfl⟩ : ∃ next rest, runs = next :: rest :=
        List.exists_cons_of_ne_nil (by rintro rfl; simp at hlength)
      have hrun := hruns run List.mem_cons_self
      have hrest : ((some sep).toList ++ weave (next :: rest) seps).Pairwise (· ≤ ·) ↔
          ((some sep).toList ++ seps).Pairwise (· ≤ ·) ∧ Between (some sep) (next :: rest) seps :=
        ih (some sep) (by simpa using hlength) fun r hr => hruns r (List.mem_cons_of_mem _ hr)
      simp only [Option.toList_some, List.singleton_append] at hrest
      have hweave : weave (run :: next :: rest) (sep :: seps) = run ++ sep :: weave (next :: rest) seps := rfl
      rw [hweave, Between]
      constructor
      · intro h
        obtain ⟨hlo, hright, hcross⟩ := List.pairwise_append.mp h
        obtain ⟨-, hsep, hle⟩ := List.pairwise_append.mp hright
        obtain ⟨hseps, hbetween⟩ := hrest.mp hsep
        have hlosep : ∀ l ∈ lo.toList, l ≤ sep := fun l hl =>
          hcross l hl sep (List.mem_append_right _ List.mem_cons_self)
        refine ⟨List.pairwise_append.mpr ⟨hlo, hseps, fun l hl y hy => ?_⟩, fun x hx => ⟨fun l hl => ?_, ?_⟩,
          hbetween⟩
        · rcases List.mem_cons.mp hy with rfl | hy
          · exact hlosep l hl
          · exact le_trans (hlosep l hl) ((List.pairwise_cons.mp hseps).1 y hy)
        · exact hcross l (Option.mem_toList.mpr hl) x (List.mem_append_left _ hx)
        · exact hle x hx sep List.mem_cons_self
      · rintro ⟨h, hsides, hbetween⟩
        obtain ⟨hlo, hseps, hcross⟩ := List.pairwise_append.mp h
        have hsep := hrest.mpr ⟨hseps, hbetween⟩
        have habove : ∀ y ∈ sep :: weave (next :: rest) seps, sep ≤ y := fun y hy => by
          rcases List.mem_cons.mp hy with rfl | hy
          · exact le_refl _
          · exact (List.pairwise_cons.mp hsep).1 y hy
        refine List.pairwise_append.mpr ⟨hlo, List.pairwise_append.mpr ⟨hrun, hsep, fun x hx y hy =>
          le_trans (hsides x hx).2 (habove y hy)⟩, fun l hl y hy => ?_⟩
        rcases List.mem_append.mp hy with hy | hy
        · exact (hsides y hy).1 l (Option.mem_toList.mp hl)
        · exact le_trans (hcross l hl sep List.mem_cons_self) (habove y hy)

end

end Runs
