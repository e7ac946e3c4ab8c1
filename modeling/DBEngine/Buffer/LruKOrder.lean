import DBEngine.Buffer.LruKReplacer

/-!
# What is evicted

The replacer keeps the last `K` accesses of a frame.  Seen from outside it has
all accesses since the frame was last evicted: among the evictable frames with
fewer than `K` of them the one whose first access is oldest is evicted, and
otherwise the one whose `K`-th most recent access is oldest, in whatever order
the loop goes through the set.
-/

set_option autoImplicit false

namespace DBEngine

/-- The last `n` of a list. -/
def recent (n : Nat) (xs : List Nat) : List Nat := xs.drop (xs.length - n)

/-- A bounded deque holds the last of what was appended. -/
theorem dequeAppend_recent (n : Nat) (xs : List Nat) (x : Nat) :
    dequeAppend n (recent n xs) x = recent n (xs ++ [x]) := by
  have hkeep : (recent n xs).length = min n xs.length := by
    rw [recent, List.length_drop]
    omega
  unfold dequeAppend
  rcases Nat.lt_or_ge xs.length n with hfew | hmany
  · have hall : recent n xs = xs := by
      rw [recent, Nat.sub_eq_zero_of_le (Nat.le_of_lt hfew), List.drop_zero]
    rw [hall, recent]
  · have hlength : (recent n xs ++ [x]).length - n = 1 := by
      rw [List.length_append, hkeep, List.length_singleton]
      omega
    rw [hlength, recent, recent, List.length_append, List.length_singleton]
    cases n with
    | zero => simp
    | succ n =>
        rw [List.drop_append_of_le_length (by rw [List.length_drop]; omega), List.drop_drop,
          List.drop_append_of_le_length (by omega)]
        congr 2
        omega

theorem head?_recent_of_lt {n : Nat} {xs : List Nat} (h : xs.length < n) :
    (recent n xs).head? = xs.head? := by
  rw [recent, Nat.sub_eq_zero_of_le (Nat.le_of_lt h), List.drop_zero]

theorem head?_recent (n : Nat) (xs : List Nat) : (recent n xs).head? = xs[xs.length - n]? :=
  List.head?_drop

theorem length_recent_lt {n : Nat} {xs : List Nat} : (recent n xs).length < n ↔ xs.length < n := by
  rw [recent, List.length_drop]
  omega

namespace LRUKReplacer

variable {history : FrameId → List Nat} {seen : List FrameId} {v : Victim} {f g : FrameId} {t u : Nat}

/-! ## The loop of `evict` -/

/-- The history of the frame is not full. -/
def Short (history : FrameId → List Nat) (f : FrameId) : Prop := (history f).length < lruK

/-- What the loop carries after it has looked at some frames. -/
structure Best (history : FrameId → List Nat) (seen : List FrameId) (v : Victim) : Prop where
  found : v.foundInf = true ↔ ∃ g ∈ seen, Short history g
  nothing : v.lastUse = none → seen = []
  chosen : ∀ t, v.lastUse = some t → v.evictId ∈ seen ∧ (history v.evictId).head? = some t ∧
    (v.foundInf = true → Short history v.evictId) ∧
    ∀ g ∈ seen, v.foundInf = false ∨ Short history g → ∀ u, (history g).head? = some u → t ≤ u

theorem best_nil (history : FrameId → List Nat) : Best history [] ⟨frameZero, none, false⟩ :=
  ⟨by simp, fun _ => rfl, by simp⟩

theorem not_usedBefore (h : usedBefore t v.lastUse = false) : ∃ u, v.lastUse = some u ∧ u ≤ t := by
  unfold usedBefore at h
  cases hlast : v.lastUse with
  | none => simp [hlast] at h
  | some u =>
      rw [hlast] at h
      exact ⟨u, rfl, Nat.not_lt.mp (of_decide_eq_false h)⟩

theorem le_of_usedBefore (h : usedBefore t (some u) = true) : t ≤ u :=
  Nat.le_of_lt (of_decide_eq_true h)

/-- The victim stays when the frame looked at is no better. -/
theorem Best.keep (h : Best history seen v) (ht : (history f).head? = some t)
    (hfound : Short history f → v.foundInf = true)
    (hworse : v.foundInf = false ∨ Short history f → usedBefore t v.lastUse = false)
    (hseen : seen ≠ []) : Best history (seen ++ [f]) v where
  found := by
    rw [h.found]
    constructor
    · rintro ⟨g, hg, hshort⟩
      exact ⟨g, List.mem_append_left _ hg, hshort⟩
    · rintro ⟨g, hg, hshort⟩
      rcases List.mem_append.mp hg with hg | hg
      · exact ⟨g, hg, hshort⟩
      · rw [List.mem_singleton.mp hg] at hshort
        exact h.found.mp (hfound hshort)
  nothing hnone := absurd (h.nothing hnone) hseen
  chosen u hu := by
    obtain ⟨hmem, hhead, hshort, hleast⟩ := h.chosen u hu
    refine ⟨List.mem_append_left _ hmem, hhead, hshort, fun g hg hcase x hx => ?_⟩
    rcases List.mem_append.mp hg with hg | hg
    · exact hleast g hg hcase x hx
    · rw [List.mem_singleton.mp hg] at hcase hx
      obtain ⟨u', hu', hle⟩ := not_usedBefore (hworse hcase)
      obtain rfl := Option.some.inj (hu.symm.trans hu')
      obtain rfl := Option.some.inj (ht.symm.trans hx)
      exact hle

/-- The frame looked at is the new victim when none before it is as good. -/
theorem best_take {foundInf : Bool} (ht : (history f).head? = some t)
    (hfound : foundInf = true ↔ Short history f ∨ ∃ g ∈ seen, Short history g)
    (hshort : foundInf = true → Short history f)
    (hleast : ∀ g ∈ seen, foundInf = false ∨ Short history g → ∀ u, (history g).head? = some u → t ≤ u) :
    Best history (seen ++ [f]) ⟨f, some t, foundInf⟩ where
  found := by
    rw [hfound]
    constructor
    · rintro (hf | ⟨g, hg, hg'⟩)
      · exact ⟨f, by simp, hf⟩
      · exact ⟨g, List.mem_append_left _ hg, hg'⟩
    · rintro ⟨g, hg, hg'⟩
      rcases List.mem_append.mp hg with hg | hg
      · exact Or.inr ⟨g, hg, hg'⟩
      · rw [List.mem_singleton.mp hg] at hg'
        exact Or.inl hg'
  nothing h := nomatch h
  chosen u hu := by
    obtain rfl := Option.some.inj hu
    refine ⟨by simp, ht, hshort, fun g hg hcase x hx => ?_⟩
    rcases List.mem_append.mp hg with hg | hg
    · exact hleast g hg hcase x hx
    · rw [List.mem_singleton.mp hg] at hx
      exact Nat.le_of_eq (Option.some.inj (ht.symm.trans hx))

/-- One turn of the loop. -/
theorem Best.step (h : Best history seen v) (hf : history f ≠ []) :
    ∃ v', evictStep history v f = .ok v' ∧ Best history (seen ++ [f]) v' := by
  obtain ⟨t, ht⟩ : ∃ t, (history f).head? = some t := Option.isSome_iff_exists.mp (by simpa using hf)
  -- an earlier frame was used after a frame that was used before the victim
  have hbetter (hbefore : usedBefore t v.lastUse = true) : ∀ g ∈ seen,
      v.foundInf = false ∨ Short history g → ∀ u, (history g).head? = some u → t ≤ u := by
    intro g hg hcase u hu
    cases hlast : v.lastUse with
    | none => simp [h.nothing hlast] at hg
    | some last =>
        obtain ⟨-, -, -, hleast⟩ := h.chosen last hlast
        rw [hlast] at hbefore
        exact Nat.le_trans (le_of_usedBefore hbefore) (hleast g hg hcase u hu)
  have hnonempty (hlater : usedBefore t v.lastUse = false) : seen ≠ [] := by
    obtain ⟨u, hu, -⟩ := not_usedBefore hlater
    exact List.ne_nil_of_mem (h.chosen u hu).1
  unfold evictStep
  rw [ht]
  dsimp only
  by_cases hshort : (history f).length < lruK
  · rw [if_pos hshort]
    by_cases htake : v.foundInf = false ∨ usedBefore t v.lastUse = true
    · rw [if_pos htake]
      refine ⟨_, rfl, best_take ht ⟨fun _ => Or.inl hshort, fun _ => rfl⟩ (fun _ => hshort) fun g hg hcase u hu => ?_⟩
      have hg' : Short history g := hcase.resolve_left (by simp)
      have hinf : v.foundInf = true := h.found.mpr ⟨g, hg, hg'⟩
      exact hbetter (htake.resolve_left (by simp [hinf])) g hg (Or.inr hg') u hu
    · rw [if_neg htake]
      simp only [not_or, Bool.not_eq_false, Bool.not_eq_true] at htake
      exact ⟨v, rfl, h.keep ht (fun _ => htake.1) (fun _ => htake.2) (hnonempty htake.2)⟩
  · rw [if_neg hshort]
    by_cases htake : v.foundInf = false ∧ usedBefore t v.lastUse = true
    · rw [if_pos htake]
      refine ⟨_, rfl, best_take ht ?_ (fun hinf => ?_) (hbetter htake.2)⟩
      · rw [h.found]
        exact ⟨Or.inr, fun hcase => hcase.resolve_left hshort⟩
      · rw [htake.1] at hinf
        exact nomatch hinf
    · rw [if_neg htake]
      refine ⟨v, rfl, h.keep ht (fun hs => absurd hs hshort) (fun hcase => ?_) ?_⟩
      · have hinf := hcase.resolve_right hshort
        simpa [hinf] using htake
      · by_cases hinf : v.foundInf = true
        · obtain ⟨g, hg, -⟩ := h.found.mp hinf
          exact List.ne_nil_of_mem hg
        · exact hnonempty (by simpa [hinf] using htake)

theorem Best.loop {order : List FrameId} : ∀ {seen : List FrameId} {v : Victim}, Best history seen v →
    (∀ f ∈ order, history f ≠ []) →
    ∃ v', evictLoop history v order = .ok v' ∧ Best history (seen ++ order) v' := by
  induction order with
  | nil =>
      intro seen v h _
      exact ⟨v, rfl, by rwa [List.append_nil]⟩
  | cons f rest ih =>
      intro seen v h hhist
      obtain ⟨v₁, hstep, h₁⟩ := h.step (hhist f List.mem_cons_self)
      obtain ⟨v', hloop, h'⟩ := ih h₁ fun g hg => hhist g (List.mem_cons_of_mem f hg)
      refine ⟨v', ?_, by rwa [List.append_assoc, List.singleton_append] at h'⟩
      rw [evictLoop, hstep]
      exact hloop

end LRUKReplacer

/-! ## Runs -/

/-- A call on the replacer; an eviction goes through the evictable frames in some order. -/
inductive ReplacerCall where
  | recordAccess (frameId : FrameId)
  | setEvictable (frameId : FrameId) (evictable : Bool)
  | evict (order : List FrameId)

/-- The replacer, the number of accesses recorded, and when each frame was accessed since it
was last evicted. -/
structure ReplacerSession where
  replacer : LRUKReplacer
  clock : Nat
  accesses : FrameId → List Nat

namespace ReplacerSession

def new : ReplacerSession := ⟨LRUKReplacer.new, 0, fun _ => []⟩

def step (s : ReplacerSession) : ReplacerCall → ReplacerSession
  | .recordAccess f =>
      { replacer := s.replacer.recordAccess f
        clock := s.clock + 1
        accesses := Function.update s.accesses f (s.accesses f ++ [s.clock]) }
  | .setEvictable f evictable => { s with replacer := s.replacer.setEvictable f evictable }
  | .evict order =>
      match s.replacer.evict order with
      | (.ok (some f), r) => { s with replacer := r, accesses := Function.update s.accesses f [] }
      | (_, r) => { s with replacer := r }

/-- The order goes through the evictable frames. -/
def Enumerates (order : List FrameId) (s : ReplacerSession) : Prop :=
  ∀ f, f ∈ order ↔ f ∈ s.replacer.evictable

/-- A frame is made evictable only after an access since it was last evicted. -/
def Allowed (s : ReplacerSession) : ReplacerCall → Prop
  | .setEvictable f true => s.accesses f ≠ []
  | .evict order => Enumerates order s
  | _ => True

inductive Reachable : ReplacerSession → Prop
  | new : Reachable new
  | step {s : ReplacerSession} (call : ReplacerCall) (hs : Reachable s) (hcall : s.Allowed call) :
      Reachable (s.step call)

/-- The first access of a frame, and the `K`-th most recent one. -/
def firstAccess (s : ReplacerSession) (f : FrameId) : Option Nat := (s.accesses f).head?

def kthRecent (s : ReplacerSession) (f : FrameId) : Option Nat :=
  (s.accesses f)[(s.accesses f).length - lruK]?

/-- One moment is before another. -/
def Before : Option Nat → Option Nat → Prop
  | some t, some u => t < u
  | _, _ => False

/-- Some evictable frame has fewer than `K` accesses. -/
def SomeShort (s : ReplacerSession) : Prop := ∃ g ∈ s.replacer.evictable, (s.accesses g).length < lruK

/-- The frame that LRU-K evicts. -/
structure IsVictim (s : ReplacerSession) (f : FrameId) : Prop where
  evictable : f ∈ s.replacer.evictable
  first : s.SomeShort → (s.accesses f).length < lruK ∧ ∀ g ∈ s.replacer.evictable,
    (s.accesses g).length < lruK → g ≠ f → Before (s.firstAccess f) (s.firstAccess g)
  kth : ¬ s.SomeShort → ∀ g ∈ s.replacer.evictable, g ≠ f → Before (s.kthRecent f) (s.kthRecent g)

/-- What is kept along every run: the deques hold the last of the accesses, and no two
accesses are at one moment. -/
structure Recorded (s : ReplacerSession) : Prop where
  clock : s.replacer.currentTime = s.clock
  history : ∀ f, s.replacer.history f = recent lruK (s.accesses f)
  past : ∀ f, ∀ t ∈ s.accesses f, t < s.clock
  distinct : ∀ f g t, t ∈ s.accesses f → t ∈ s.accesses g → f = g
  accessed : ∀ f ∈ s.replacer.evictable, s.accesses f ≠ []

variable {s : ReplacerSession} {f g : FrameId} {order : List FrameId}

theorem Before.ne {a b : Option Nat} (h : Before a b) (h' : Before b a) : False := by
  cases a with
  | none => exact h
  | some t =>
      cases b with
      | none => exact h
      | some u => exact Nat.lt_asymm h h'

/-- There is one victim at most. -/
theorem isVictim_unique (hf : s.IsVictim f) (hg : s.IsVictim g) : f = g := by
  by_contra hne
  by_cases hshort : s.SomeShort
  · obtain ⟨hf', hfirst⟩ := hf.first hshort
    obtain ⟨hg', hfirst'⟩ := hg.first hshort
    exact (hfirst g hg.evictable hg' (Ne.symm hne)).ne (hfirst' f hf.evictable hf' hne)
  · exact (hf.kth hshort g hg.evictable (Ne.symm hne)).ne (hg.kth hshort f hf.evictable hne)

theorem Recorded.short_iff (h : Recorded s) :
    LRUKReplacer.Short s.replacer.history f ↔ (s.accesses f).length < lruK := by
  rw [LRUKReplacer.Short, h.history]
  exact length_recent_lt

theorem Recorded.history_ne_nil (h : Recorded s) (hf : f ∈ s.replacer.evictable) :
    s.replacer.history f ≠ [] := by
  intro hnil
  have hlength := congrArg List.length (h.history f ▸ hnil)
  have hpos := List.length_pos_iff.mpr (h.accessed f hf)
  rw [recent, List.length_drop, List.length_nil, lruK] at hlength
  omega

/-- Different frames have different accesses. -/
theorem Recorded.before (h : Recorded s) (hne : g ≠ f) {t u : Nat} {a b : Option Nat} (ha : a = some t)
    (hb : b = some u) (hle : t ≤ u) (ht : t ∈ s.accesses f) (hu : u ∈ s.accesses g) : Before a b := by
  rw [ha, hb]
  refine Nat.lt_of_le_of_ne hle ?_
  rintro rfl
  exact hne (h.distinct g f t hu ht)

/-- `evict` of a set of frames takes the victim and forgets its history. -/
theorem Recorded.evict (h : Recorded s) (horder : Enumerates order s)
    (hne : s.replacer.evictable.Nonempty) :
    ∃ f, s.IsVictim f ∧ s.replacer.evict order = (.ok (some f),
      { s.replacer with
        evictable := s.replacer.evictable.erase f
        history := Function.update s.replacer.history f [] }) := by
  have hcard : s.replacer.evictable.card ≠ 0 := Finset.card_ne_zero.mpr hne
  obtain ⟨v, hloop, hbest⟩ := (LRUKReplacer.best_nil s.replacer.history).loop
    fun f hf => h.history_ne_nil ((horder f).mp hf)
  rw [List.nil_append] at hbest
  obtain ⟨e, he⟩ := hne
  obtain ⟨t, hlast⟩ : ∃ t, v.lastUse = some t := Option.ne_none_iff_exists'.mp fun hnone => by
    have := (horder e).mpr he
    simp [hbest.nothing hnone] at this
  obtain ⟨hmem, hhead, hshort, hleast⟩ := hbest.chosen t hlast
  have hfound : v.foundInf = true ↔ s.SomeShort := by
    rw [hbest.found]
    constructor
    · rintro ⟨g, hg, hg'⟩
      exact ⟨g, (horder g).mp hg, h.short_iff.mp hg'⟩
    · rintro ⟨g, hg, hg'⟩
      exact ⟨g, (horder g).mpr hg, h.short_iff.mpr hg'⟩
  rw [h.history] at hhead
  refine ⟨v.evictId, ⟨(horder _).mp hmem, fun hsome => ?_, fun hnone => ?_⟩,
    by simp only [LRUKReplacer.evict, if_neg hcard, hloop]⟩
  · have hinf := hfound.mpr hsome
    have hf := h.short_iff.mp (hshort hinf)
    refine ⟨hf, fun g hg hg' hgf => ?_⟩
    obtain ⟨u, hu⟩ : ∃ u, s.firstAccess g = some u :=
      Option.isSome_iff_exists.mp (by simpa [firstAccess] using h.accessed g hg)
    rw [head?_recent_of_lt hf] at hhead
    have hle := hleast g ((horder g).mpr hg) (Or.inr (h.short_iff.mpr hg')) u
      (by rw [h.history, head?_recent_of_lt hg']; exact hu)
    exact h.before hgf hhead hu hle (List.mem_of_mem_head? hhead) (List.mem_of_mem_head? hu)
  · have hinf : v.foundInf = false := Bool.eq_false_iff.mpr fun hinf => hnone (hfound.mp hinf)
    intro g hg hgf
    obtain ⟨u, hu⟩ : ∃ u, (s.replacer.history g).head? = some u :=
      Option.isSome_iff_exists.mp (by simpa using h.history_ne_nil hg)
    have hle := hleast g ((horder g).mpr hg) (Or.inl hinf) u hu
    rw [h.history] at hu
    rw [head?_recent] at hhead hu
    exact h.before hgf hhead hu hle (List.mem_of_getElem? hhead) (List.mem_of_getElem? hu)

/-! ## Every run -/

theorem recorded_new : Recorded new :=
  ⟨rfl, fun _ => rfl, by simp [new], by simp [new], by simp [new, LRUKReplacer.new]⟩

theorem Recorded.recordAccess (h : Recorded s) (f : FrameId) : Recorded (s.step (.recordAccess f)) where
  clock := congrArg (· + 1) h.clock
  history g := by
    by_cases hg : g = f
    · subst hg
      simp only [step, LRUKReplacer.recordAccess, Function.update_self, h.history, h.clock]
      exact dequeAppend_recent lruK (s.accesses g) s.clock
    · simp only [step, LRUKReplacer.recordAccess, Function.update_of_ne hg, h.history]
  past g t ht := by
    by_cases hg : g = f
    · subst hg
      simp only [step, Function.update_self, List.mem_append, List.mem_singleton] at ht ⊢
      rcases ht with ht | rfl
      · exact Nat.lt_succ_of_lt (h.past g t ht)
      · exact Nat.lt_succ_self _
    · simp only [step, Function.update_of_ne hg] at ht ⊢
      exact Nat.lt_succ_of_lt (h.past g t ht)
  distinct g g' t ht ht' := by
    have hcases : ∀ g, t ∈ (s.step (.recordAccess f)).accesses g →
        t ∈ s.accesses g ∨ g = f ∧ t = s.clock := fun g ht => by
      by_cases hg : g = f
      · subst hg
        simpa [step] using ht
      · exact Or.inl (by simpa [step, hg] using ht)
    rcases hcases g ht with hold | ⟨rfl, rfl⟩
    · rcases hcases g' ht' with hold' | ⟨-, rfl⟩
      · exact h.distinct g g' t hold hold'
      · exact absurd (h.past g _ hold) (Nat.lt_irrefl _)
    · rcases hcases g' ht' with hold' | ⟨rfl, -⟩
      · exact absurd (h.past g' _ hold') (Nat.lt_irrefl _)
      · rfl
  accessed g hg := by
    by_cases hgf : g = f
    · subst hgf
      simp [step]
    · simpa [step, hgf] using h.accessed g hg

theorem Recorded.setEvictable (h : Recorded s) {evictable : Bool}
    (hcall : s.Allowed (.setEvictable f evictable)) : Recorded (s.step (.setEvictable f evictable)) where
  clock := h.clock
  history := h.history
  past := h.past
  distinct := h.distinct
  accessed g hg := by
    cases evictable with
    | true =>
        rcases Finset.mem_insert.mp hg with rfl | hg
        · exact hcall
        · exact h.accessed g hg
    | false => exact h.accessed g (Finset.mem_of_mem_erase hg)

theorem Recorded.evicted (h : Recorded s) (f : FrameId) :
    Recorded { s with
      replacer := { s.replacer with
        evictable := s.replacer.evictable.erase f
        history := Function.update s.replacer.history f [] }
      accesses := Function.update s.accesses f [] } := by
  have hkeep : ∀ g, g ≠ f → Function.update s.accesses f [] g = s.accesses g :=
    fun g hg => Function.update_of_ne hg [] s.accesses
  have hsub : ∀ g t, t ∈ Function.update s.accesses f [] g → t ∈ s.accesses g := fun g t ht => by
    by_cases hg : g = f
    · subst hg
      simp at ht
    · rwa [hkeep g hg] at ht
  exact
    { clock := h.clock
      history := fun g => by
        by_cases hg : g = f
        · subst hg
          simp [recent]
        · simp [hg, h.history]
      past := fun g t ht => h.past g t (hsub g t ht)
      distinct := fun g g' t ht ht' => h.distinct g g' t (hsub g t ht) (hsub g' t ht')
      accessed := fun g hg => by
        obtain ⟨hgf, hmem⟩ := Finset.mem_erase.mp hg
        simpa [hgf] using h.accessed g hmem }

theorem recorded_of_reachable (hs : Reachable s) : Recorded s := by
  induction hs with
  | new => exact recorded_new
  | @step s call _ hcall ih =>
      cases call with
      | recordAccess f => exact ih.recordAccess f
      | setEvictable f evictable => exact ih.setEvictable hcall
      | evict order =>
          rcases s.replacer.evictable.eq_empty_or_nonempty with hempty | hne
          · rw [step, LRUKReplacer.evict_none hempty]
            exact ih
          · obtain ⟨f, -, hevict⟩ := ih.evict hcall hne
            rw [step, hevict]
            exact ih.evicted f

/-- The order in which the loop goes through the set does not matter. -/
theorem evict_any_order {order' : List FrameId} (hs : Reachable s) (horder : Enumerates order s)
    (horder' : Enumerates order' s) : s.replacer.evict order = s.replacer.evict order' := by
  have h := recorded_of_reachable hs
  rcases s.replacer.evictable.eq_empty_or_nonempty with hempty | hne
  · rw [LRUKReplacer.evict_none hempty, LRUKReplacer.evict_none hempty]
  · obtain ⟨f, hf, hevict⟩ := h.evict horder hne
    obtain ⟨g, hg, hevict'⟩ := h.evict horder' hne
    rw [hevict, hevict', isVictim_unique hf hg]

/-- What `evict` does: nothing without evictable frames, and otherwise it returns the victim,
makes it unevictable and forgets its accesses; the other frames stay as they are. -/
def EvictsVictim (s : ReplacerSession) (order : List FrameId) : Prop :=
  match s.replacer.evict order with
  | (.ok none, r) => s.replacer.evictable = ∅ ∧ r = s.replacer
  | (.ok (some f), r) => s.IsVictim f ∧ f ∉ r.evictable ∧ r.history f = [] ∧
      r.currentTime = s.replacer.currentTime ∧
      ∀ g, g ≠ f → (g ∈ r.evictable ↔ g ∈ s.replacer.evictable) ∧ r.history g = s.replacer.history g
  | (.error _, _) => False

/-- One frame, accessed once and made evictable. -/
def single : ReplacerSession :=
  (new.step (.recordAccess frameZero)).step (.setEvictable frameZero true)

end ReplacerSession

end DBEngine
