import DBEngine.Execution.IndexSelection

/-!
# Integer bounds

Comparisons of one column with integers narrow a pair of bounds one after another.
An equality replaces both bounds, whatever they were.  Where some integer satisfies
all the comparisons nothing is lost by that: the integer was within the bounds
before, so the bounds between which only the literal is left are the intersection.
-/

set_option autoImplicit false

namespace DBEngine

namespace PhysicalPlanner

/-- The integers from the first bound to the second, `none` where there is no bound. -/
def Between (bounds : Option Int × Option Int) (k : Int) : Prop :=
  (∀ start ∈ bounds.1, start ≤ k) ∧ ∀ stop ∈ bounds.2, k ≤ stop

/-- Bounds as the planner holds them. -/
def asValues (bounds : Option Int × Option Int) : Option Value × Option Value :=
  (bounds.1.map .int, bounds.2.map .int)

/-- An integer satisfies every comparison of a list, with the column on the left. -/
def SatisfiesAll (comparisons : List (ComparisonOp × Int)) (k : Int) : Prop :=
  ∀ c ∈ comparisons, c.1.apply (.int k) (.int c.2) = .ok true

/-- `_tighten_bounds` with one comparison after another. -/
def foldBounds (comparisons : List (ComparisonOp × Int)) (bounds : Option Value × Option Value) :
    Except PyErr (Option Value × Option Value) :=
  comparisons.foldlM (fun bounds c => tightenBounds c.1 (.int c.2) bounds) bounds

/-- The loop over the conjuncts folds the comparisons of the indexed column. -/
theorem tightenAll_comparisons (column : String) (comparisons : List (ComparisonOp × Int))
    (bounds : Option Value × Option Value) :
    tightenAll (comparisons.map fun c => .comparison (.columnRef column) c.1 (.literal (.int c.2))) bounds =
      foldBounds comparisons bounds := by
  induction comparisons generalizing bounds with
  | nil => rfl
  | cons c rest ih =>
      rw [foldBounds, List.foldlM_cons, List.map_cons, tightenAll]
      exact congrArg (tightenBounds c.1 (.int c.2) bounds >>= ·) (funext ih)

/-! ## One comparison -/

/-- A lower bound once `x` is one as well. -/
def raised : Option Int → Int → Int
  | none, x => x
  | some start, x => max start x

/-- An upper bound once `x` is one as well. -/
def lowered : Option Int → Int → Int
  | none, x => x
  | some stop, x => min stop x

/-- What a comparison makes of integer bounds. -/
def narrow (op : ComparisonOp) (x : Int) (bounds : Option Int × Option Int) :
    Option Int × Option Int :=
  match op with
  | .eq => (some x, some x)
  | .gt => (some (raised bounds.1 (x + 1)), bounds.2)
  | .gte => (some (raised bounds.1 x), bounds.2)
  | .lt => (bounds.1, some (lowered bounds.2 (x - 1)))
  | .lte => (bounds.1, some (lowered bounds.2 x))
  | .neq => bounds

theorem int_gt (a b : Int) : Value.gt (.int a) (.int b) = .ok (decide (b < a)) := by
  simp [Value.gt, Value.compareWith, Value.key]

theorem int_lt (a b : Int) : Value.lt (.int a) (.int b) = .ok (decide (a < b)) := by
  simp [Value.lt, Value.compareWith, Value.key]

theorem maxBound_int (bound : Option Int) (x : Int) :
    maxBound (bound.map .int) (.int x) = .ok (.int (raised bound x)) := by
  cases bound with
  | none => rfl
  | some start =>
      rw [Option.map_some, maxBound, int_gt, raised]
      rcases lt_or_ge start x with hless | hle
      · simp [hless, max_eq_right hless.le, bind, Except.bind, pure, Except.pure]
      · simp [not_lt.mpr hle, max_eq_left hle, bind, Except.bind, pure, Except.pure]

theorem minBound_int (bound : Option Int) (x : Int) :
    minBound (bound.map .int) (.int x) = .ok (.int (lowered bound x)) := by
  cases bound with
  | none => rfl
  | some stop =>
      rw [Option.map_some, minBound, int_lt, lowered]
      rcases lt_or_ge x stop with hless | hle
      · simp [hless, min_eq_right hless.le, bind, Except.bind, pure, Except.pure]
      · simp [not_lt.mpr hle, min_eq_left hle, bind, Except.bind, pure, Except.pure]

/-- Integer bounds stay integer bounds. -/
theorem tightenBounds_int (op : ComparisonOp) (x : Int) (bounds : Option Int × Option Int) :
    tightenBounds op (.int x) (asValues bounds) = .ok (asValues (narrow op x bounds)) := by
  unfold tightenBounds asValues narrow
  cases op with
  | eq => rfl
  | neq => rfl
  | gt => simp only [Value.addOne, maxBound_int, bind, Except.bind, pure, Except.pure, Option.map_some]
  | gte => simp only [maxBound_int, bind, Except.bind, pure, Except.pure, Option.map_some]
  | lt => simp only [Value.subOne, minBound_int, bind, Except.bind, pure, Except.pure, Option.map_some]
  | lte => simp only [minBound_int, bind, Except.bind, pure, Except.pure, Option.map_some]

theorem raised_le_iff (bound : Option Int) (x k : Int) :
    raised bound x ≤ k ↔ (∀ start ∈ bound, start ≤ k) ∧ x ≤ k := by
  cases bound with
  | none => simp [raised]
  | some start => simp [raised]

theorem le_lowered_iff (bound : Option Int) (x k : Int) :
    k ≤ lowered bound x ↔ (∀ stop ∈ bound, k ≤ stop) ∧ k ≤ x := by
  cases bound with
  | none => simp [lowered]
  | some stop => simp [lowered]

/-- The integers between the narrowed bounds; an equality forgets what the bounds were. -/
theorem between_narrow_iff {op : ComparisonOp} (hop : op ≠ .neq) (x : Int)
    (bounds : Option Int × Option Int) (k : Int) : Between (narrow op x bounds) k ↔
      (op = .eq ∨ Between bounds k) ∧ op.apply (.int k) (.int x) = .ok true := by
  unfold Between narrow ComparisonOp.apply
  cases op with
  | neq => exact absurd rfl hop
  | eq =>
      simp only [Value.eq, Value.key, Option.mem_some_iff, forall_eq']
      simp
      omega
  | gt =>
      simp only [int_gt, Option.mem_some_iff, forall_eq', raised_le_iff, Int.add_one_le_iff]
      simp
      tauto
  | gte =>
      simp only [Value.ge, Value.compareWith, Value.key, Option.mem_some_iff, forall_eq', raised_le_iff]
      simp
      tauto
  | lt =>
      simp only [int_lt, Option.mem_some_iff, forall_eq', le_lowered_iff, Int.le_sub_one_iff]
      simp
      tauto
  | lte =>
      simp only [Value.le, Value.compareWith, Value.key, Option.mem_some_iff, forall_eq', le_lowered_iff]
      simp
      tauto

/-! ## All of them -/

/-- The bounds after one comparison after another. -/
def narrowAll (comparisons : List (ComparisonOp × Int)) (bounds : Option Int × Option Int) :
    Option Int × Option Int :=
  comparisons.foldl (fun bounds c => narrow c.1 c.2 bounds) bounds

theorem foldBounds_int (comparisons : List (ComparisonOp × Int)) (bounds : Option Int × Option Int) :
    foldBounds comparisons (asValues bounds) = .ok (asValues (narrowAll comparisons bounds)) := by
  induction comparisons generalizing bounds with
  | nil => rfl
  | cons c rest ih =>
      rw [foldBounds, List.foldlM_cons, tightenBounds_int]
      exact ih (narrow c.1 c.2 bounds)

/-- Within the bounds, an integer that satisfies every comparison keeps an equality from
forgetting more than it says. -/
theorem between_narrowAll_iff {comparisons : List (ComparisonOp × Int)}
    (hops : ∀ c ∈ comparisons, c.1 ≠ .neq) {w : Int} (hw : SatisfiesAll comparisons w)
    {bounds : Option Int × Option Int} (hbetween : Between bounds w) (k : Int) :
    Between (narrowAll comparisons bounds) k ↔ Between bounds k ∧ SatisfiesAll comparisons k := by
  induction comparisons generalizing bounds with
  | nil => exact ⟨fun h => ⟨h, fun c hc => absurd hc List.not_mem_nil⟩, And.left⟩
  | cons c rest ih =>
      obtain ⟨hop, hrest⟩ := List.forall_mem_cons.mp hops
      obtain ⟨hfirst, hothers⟩ := List.forall_mem_cons.mp hw
      have hstep := between_narrow_iff hop c.2 bounds
      have hinside : Between (narrow c.1 c.2 bounds) w := (hstep w).mpr ⟨.inr hbetween, hfirst⟩
      -- what an equality lets back in is `w` itself
      have hexact : Between (narrow c.1 c.2 bounds) k ↔
          Between bounds k ∧ c.1.apply (.int k) (.int c.2) = .ok true := by
        rw [hstep k]
        refine and_congr_left fun hk => ⟨fun h => h.elim (fun heq => ?_) id, .inr⟩
        have hwx : w = c.2 := by simpa [heq, ComparisonOp.apply, Value.eq, Value.key] using hfirst
        have hkx : k = c.2 := by simpa [heq, ComparisonOp.apply, Value.eq, Value.key] using hk
        exact hkx.trans hwx.symm ▸ hbetween
      rw [narrowAll, List.foldl_cons]
      refine (ih hrest hothers hinside).trans ?_
      rw [hexact, SatisfiesAll, SatisfiesAll, List.forall_mem_cons, and_assoc]

theorem satisfiesAll_perm {comparisons others : List (ComparisonOp × Int)}
    (h : comparisons.Perm others) (k : Int) :
    SatisfiesAll others k ↔ SatisfiesAll comparisons k :=
  ⟨fun hall c hc => hall c (h.mem_iff.mp hc), fun hall c hc => hall c (h.mem_iff.mpr hc)⟩

/-- A lower bound is read off the integers between the bounds. -/
theorem start_le_of_between {bounds others : Option Int × Option Int} {w : Int} (hw : Between others w)
    (h : ∀ k, Between others k → Between bounds k) : ∀ start ∈ bounds.1, ∃ s ∈ others.1, start ≤ s := by
  intro start hstart
  cases hother : others.1 with
  | some s =>
      have hsw : s ≤ w := hw.1 s hother
      exact ⟨s, rfl, (h s ⟨fun s' hs' => (Option.mem_unique hs' hother).le,
        fun stop hstop => hsw.trans (hw.2 stop hstop)⟩).1 start hstart⟩
  | none =>
      -- nothing bounds the others from below, so they hold an integer under `start`
      have hlow := h (min w (start - 1)) ⟨fun s hs => by simp [hother] at hs,
        fun stop hstop => (min_le_left w _).trans (hw.2 stop hstop)⟩
      have hcontra := hlow.1 start hstart
      omega

theorem stop_ge_of_between {bounds others : Option Int × Option Int} {w : Int} (hw : Between others w)
    (h : ∀ k, Between others k → Between bounds k) : ∀ stop ∈ bounds.2, ∃ s ∈ others.2, s ≤ stop := by
  intro stop hstop
  cases hother : others.2 with
  | some s =>
      have hws : w ≤ s := hw.2 s hother
      exact ⟨s, rfl, (h s ⟨fun start hstart => (hw.1 start hstart).trans hws,
        fun s' hs' => (Option.mem_unique hother hs').le⟩).2 stop hstop⟩
  | none =>
      have hhigh := h (max w (stop + 1)) ⟨fun start hstart => (hw.1 start hstart).trans (le_max_left w _),
        fun s hs => by simp [hother] at hs⟩
      have hcontra := hhigh.2 stop hstop
      omega

/-- Two optional bounds that are as strict as each other are one. -/
theorem option_eq_of_antisymm {r : Int → Int → Prop} (hr : ∀ a b, r a b → r b a → a = b)
    {bound other : Option Int} (h : ∀ a ∈ bound, ∃ b ∈ other, r a b)
    (h' : ∀ b ∈ other, ∃ a ∈ bound, r b a) : bound = other := by
  have hone : ∀ a ∈ bound, ∀ b ∈ other, a = b := by
    intro a ha b hb
    obtain ⟨b', hb', hab⟩ := h a ha
    obtain ⟨a', ha', hba⟩ := h' b hb
    obtain rfl := Option.mem_unique hb hb'
    obtain rfl := Option.mem_unique ha ha'
    exact hr a b hab hba
  refine Option.ext fun x => ⟨fun hx => ?_, fun hx => ?_⟩
  · obtain ⟨b, hb, -⟩ := h x hx
    exact hone x hx b hb ▸ hb
  · obtain ⟨a, ha, -⟩ := h' x hx
    exact hone a ha x hx ▸ ha

/-- Bounds with an integer between them are determined by the integers between them. -/
theorem eq_of_between_iff {bounds others : Option Int × Option Int} {w : Int} (hw : Between bounds w)
    (h : ∀ k, Between bounds k ↔ Between others k) : bounds = others := by
  have hw' : Between others w := (h w).mp hw
  refine Prod.ext ?_ ?_
  · exact option_eq_of_antisymm (fun a b => le_antisymm)
      (start_le_of_between hw' fun k => (h k).mpr) (start_le_of_between hw fun k => (h k).mp)
  · exact option_eq_of_antisymm (r := fun a b => b ≤ a) (fun a b hba hab => le_antisymm hab hba)
      (stop_ge_of_between hw' fun k => (h k).mpr) (stop_ge_of_between hw fun k => (h k).mp)

/-- From no bounds, comparisons some integer satisfies leave exactly the integers that
satisfy all of them, and the same bounds in any order. -/
theorem foldBounds_exact (comparisons : List (ComparisonOp × Int)) (hops : ∀ c ∈ comparisons, c.1 ≠ .neq) :
    ∃ bounds, foldBounds comparisons (none, none) = .ok (asValues bounds) ∧
      ((∃ w, SatisfiesAll comparisons w) →
        (∀ k, Between bounds k ↔ SatisfiesAll comparisons k) ∧
        ∀ others, comparisons.Perm others → foldBounds others (none, none) = .ok (asValues bounds)) := by
  have hexact : ∀ cs : List (ComparisonOp × Int), (∀ c ∈ cs, c.1 ≠ .neq) → ∀ w, SatisfiesAll cs w →
      ∀ k, Between (narrowAll cs (none, none)) k ↔ SatisfiesAll cs k := by
    intro cs hcs w hw k
    have hnone : ∀ n, Between (none, none) n := fun n => ⟨fun _ h => (nomatch h), fun _ h => (nomatch h)⟩
    exact (between_narrowAll_iff hcs hw (hnone w) k).trans ⟨And.right, fun h => ⟨hnone k, h⟩⟩
  refine ⟨narrowAll comparisons (none, none), foldBounds_int comparisons (none, none), ?_⟩
  rintro ⟨w, hw⟩
  have hall := hexact comparisons hops w hw
  refine ⟨hall, fun others hperm => ?_⟩
  have hsame := satisfiesAll_perm hperm
  have hothers := hexact others (fun c hc => hops c (hperm.mem_iff.mpr hc)) w ((hsame w).mpr hw)
  have hbounds := eq_of_between_iff ((hall w).mpr hw) fun k =>
    (hall k).trans ((hsame k).symm.trans (hothers k).symm)
  exact hbounds ▸ foldBounds_int others (none, none)

/-- An equality between two inequalities. -/
theorem foldBounds_exact_five : SatisfiesAll [(.gt, 3), (.eq, 5), (.lte, 9)] 5 ∧
    ∃ bounds, foldBounds [(.gt, 3), (.eq, 5), (.lte, 9)] (none, none) = .ok (asValues bounds) ∧
      ((∃ w, SatisfiesAll [(.gt, 3), (.eq, 5), (.lte, 9)] w) →
        (∀ k, Between bounds k ↔ SatisfiesAll [(.gt, 3), (.eq, 5), (.lte, 9)] k) ∧
        ∀ others, List.Perm [(.gt, 3), (.eq, 5), (.lte, 9)] others →
          foldBounds others (none, none) = .ok (asValues bounds)) := by
  refine ⟨?_, foldBounds_exact [(.gt, 3), (.eq, 5), (.lte, 9)] (by decide)⟩
  intro c hc
  simp only [List.mem_cons, List.not_mem_nil, or_false] at hc
  rcases hc with rfl | rfl | rfl
  · exact int_gt 5 3
  · simp [ComparisonOp.apply, Value.eq, Value.key]
  · simp [ComparisonOp.apply, Value.le, Value.compareWith, Value.key]
    norm_num

end PhysicalPlanner

end DBEngine
