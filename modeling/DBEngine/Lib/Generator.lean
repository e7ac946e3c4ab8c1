/-!
# Generators

What a generator yields when it is run to its end: items, and at last an
exception when one ended it.  `collect` is `list(generator)`.
-/

set_option autoImplicit false

/-- A run of a generator. -/
inductive Generator (E α : Type) where
  | done
  | raised (e : E)
  | yield (item : α) (rest : Generator E α)

namespace Generator

variable {E α β : Type}

/-- `yield` of every item. -/
def ofList : List α → Generator E α
  | [] => done
  | a :: as => yield a (ofList as)

/-- A generator that goes on with another one when it is at its end. -/
def append : Generator E α → Generator E α → Generator E α
  | done, h => h
  | raised e, _ => raised e
  | yield a g, h => yield a (append g h)

/-- `for item in generator: yield from body(item)`. -/
def forEach : Generator E α → (α → Generator E β) → Generator E β
  | done, _ => done
  | raised e, _ => raised e
  | yield a g, body => (body a).append (forEach g body)

/-- The body of a loop that first computes something that may raise. -/
def after (x : Except E α) (body : α → Generator E β) : Generator E β :=
  match x with
  | .ok a => body a
  | .error e => raised e

/-- `list(generator)`. -/
def collect : Generator E α → Except E (List α)
  | done => .ok []
  | raised e => .error e
  | yield a g =>
      match collect g with
      | .ok as => .ok (a :: as)
      | .error e => .error e

@[simp] theorem collect_done : (done : Generator E α).collect = .ok [] := rfl

@[simp] theorem collect_raised (e : E) : (raised e : Generator E α).collect = .error e := rfl

@[simp] theorem collect_ofList (as : List α) : (ofList as : Generator E α).collect = .ok as := by
  induction as with
  | nil => rfl
  | cons a as ih => simp [ofList, collect, ih]

@[simp] theorem after_ok (a : α) (body : α → Generator E β) : after (.ok a) body = body a := rfl

@[simp] theorem after_error (e : E) (body : α → Generator E β) : after (.error e) body = raised e := rfl

theorem collect_append_ok {g h : Generator E α} {as bs : List α} (hg : g.collect = .ok as)
    (hh : h.collect = .ok bs) : (g.append h).collect = .ok (as ++ bs) := by
  induction g generalizing as with
  | done =>
      obtain rfl := Except.ok.inj hg
      exact hh
  | raised e => simp at hg
  | yield a g ih =>
      cases hrest : g.collect with
      | error e => simp [collect, hrest] at hg
      | ok rest =>
          simp only [collect, hrest, Except.ok.injEq] at hg
          subst hg
          simp [append, collect, ih hrest]

/-- A generator that goes on with another one returns when both do. -/
theorem collect_append_eq_ok {g h : Generator E α} {cs : List α} (happend : (g.append h).collect = .ok cs) :
    ∃ as bs, g.collect = .ok as ∧ h.collect = .ok bs ∧ cs = as ++ bs := by
  induction g generalizing cs with
  | done => exact ⟨[], cs, rfl, happend, rfl⟩
  | raised e => simp [append] at happend
  | yield a g ih =>
      cases hrest : (g.append h).collect with
      | error e => simp [append, collect, hrest] at happend
      | ok rest =>
          simp only [append, collect, hrest, Except.ok.injEq] at happend
          obtain ⟨as, bs, has, hbs, rfl⟩ := ih hrest
          exact ⟨a :: as, bs, by simp [collect, has], hbs, by rw [← happend]; rfl⟩

/-- A generator without an exception is the list of its items. -/
theorem eq_ofList {g : Generator E α} {as : List α} (h : g.collect = .ok as) : g = ofList as := by
  induction g generalizing as with
  | done =>
      obtain rfl := Except.ok.inj h
      rfl
  | raised e => simp at h
  | yield a g ih =>
      cases hrest : g.collect with
      | error e => simp [collect, hrest] at h
      | ok rest =>
          simp only [collect, hrest, Except.ok.injEq] at h
          rw [← h, ofList, ih hrest]

/-- Two generators one after the other give both results, when both give one. -/
theorem toOption_collect_append (g h : Generator E α) : (g.append h).collect.toOption =
    g.collect.toOption.bind fun as => h.collect.toOption.map fun bs => as ++ bs := by
  induction g with
  | done =>
      change h.collect.toOption = h.collect.toOption.map fun bs => [] ++ bs
      cases h.collect <;> rfl
  | raised e => rfl
  | yield a g ih =>
      rw [append, collect, collect]
      cases hg : g.collect with
      | error e =>
          rw [hg] at ih
          cases hgh : (g.append h).collect with
          | error e' => rfl
          | ok cs => simp [hgh, Except.toOption] at ih
      | ok as =>
          rw [hg] at ih
          cases hgh : (g.append h).collect with
          | error e' =>
              rw [hgh] at ih
              cases hh : h.collect with
              | error e'' => rfl
              | ok bs => simp [hh, Except.toOption] at ih
          | ok cs =>
              rw [hgh] at ih
              cases hh : h.collect with
              | error e'' => simp [hh, Except.toOption] at ih
              | ok bs =>
                  rw [hh] at ih
                  obtain rfl := Option.some.inj ih
                  rfl

/-- A loop yields what its body yields for every item. -/
theorem collect_forEach_ok {g : Generator E α} {as : List α} {body : α → Generator E β} {f : α → List β}
    (hg : g.collect = .ok as) (hbody : ∀ a ∈ as, (body a).collect = .ok (f a)) :
    (g.forEach body).collect = .ok (as.flatMap f) := by
  induction g generalizing as with
  | done =>
      obtain rfl := Except.ok.inj hg
      rfl
  | raised e => simp at hg
  | yield a g ih =>
      cases hrest : g.collect with
      | error e => simp [collect, hrest] at hg
      | ok rest =>
          simp only [collect, hrest, Except.ok.injEq] at hg
          subst hg
          rw [forEach, List.flatMap_cons]
          exact collect_append_ok (hbody a List.mem_cons_self)
            (ih hrest fun b hb => hbody b (List.mem_cons_of_mem a hb))

/-- A loop that returns has run its body to the end for every item. -/
theorem collect_forEach_eq_ok {g : Generator E α} {body : α → Generator E β} {bs : List β}
    (h : (g.forEach body).collect = .ok bs) :
    ∃ as, g.collect = .ok as ∧ ∀ a ∈ as, ∃ cs, (body a).collect = .ok cs := by
  induction g generalizing bs with
  | done => exact ⟨[], rfl, by simp⟩
  | raised e => simp [forEach] at h
  | yield a g ih =>
      obtain ⟨cs, ds, hcs, hds, -⟩ := collect_append_eq_ok h
      obtain ⟨as, has, hbody⟩ := ih hds
      refine ⟨a :: as, by simp [collect, has], fun b hb => ?_⟩
      rcases List.mem_cons.mp hb with rfl | hb
      · exact ⟨cs, hcs⟩
      · exact hbody b hb

/-! ## Items -/

/-- What a generator yields before it ends, normally or with an exception. -/
def items : Generator E α → List α
  | done => []
  | raised _ => []
  | yield a g => a :: g.items

@[simp] theorem items_done : (done : Generator E α).items = [] := rfl

@[simp] theorem items_raised (e : E) : (raised e : Generator E α).items = [] := rfl

@[simp] theorem items_yield (a : α) (g : Generator E α) : (yield a g).items = a :: g.items := rfl

@[simp] theorem items_ofList (as : List α) : (ofList as : Generator E α).items = as := by
  induction as with
  | nil => rfl
  | cons a as ih => rw [ofList, items_yield, ih]

theorem mem_items_append {g h : Generator E α} {a : α} (ha : a ∈ (g.append h).items) :
    a ∈ g.items ∨ a ∈ h.items := by
  induction g with
  | done => exact .inr ha
  | raised e => exact .inl ha
  | yield b g ih =>
      rw [append, items_yield, List.mem_cons] at ha
      rcases ha with rfl | ha
      · exact .inl List.mem_cons_self
      · exact (ih ha).imp_left (List.mem_cons_of_mem b)

/-- An item of a loop is one of its body for an item looped over. -/
theorem mem_items_forEach {g : Generator E α} {body : α → Generator E β} {b : β}
    (hb : b ∈ (g.forEach body).items) : ∃ a ∈ g.items, b ∈ (body a).items := by
  induction g with
  | done => simp [forEach] at hb
  | raised e => simp [forEach] at hb
  | yield a g ih =>
      rcases mem_items_append hb with hb | hb
      · exact ⟨a, List.mem_cons_self, hb⟩
      · obtain ⟨a', ha', hb⟩ := ih hb
        exact ⟨a', List.mem_cons_of_mem a ha', hb⟩

/-- An item of a body that first computes something is one that follows its result. -/
theorem mem_items_after {x : Except E α} {body : α → Generator E β} {b : β}
    (hb : b ∈ (after x body).items) : ∃ a, x = .ok a ∧ b ∈ (body a).items := by
  cases x with
  | ok a => exact ⟨a, rfl, hb⟩
  | error e => simp at hb

/-- A loop that yields what it computes of every item stops where that raises. -/
theorem items_forEach_yield (g : Generator E α) (f : α → Except E β) :
    ((g.forEach fun a => after (f a) fun b => yield b done).items).map Except.ok =
      (g.items.map f).takeWhile fun x : Except E β => x.toOption.isSome := by
  induction g with
  | done => rfl
  | raised e => rfl
  | yield a g ih =>
      rw [forEach, items_yield, List.map_cons, List.takeWhile_cons]
      cases hf : f a with
      | error e => rfl
      | ok b =>
          simp only [after_ok, append, items_yield, List.map_cons, ih]
          rfl

end Generator
