import DBEngine.Lib.FlatStore
import DBEngine.Lib.ByteBuffer

/-!
# What the engine uses of Python

The exceptions the engine raises or lets through, the `struct` codes it packs
with (native byte order on the usual little-endian machines), and assignment to
a slice of a bytearray.
-/

set_option autoImplicit false

namespace DBEngine

open ByteBuffer

/-- The exceptions of the engine.  The last two are not Python's: `noReturn`
marks a call that runs for ever, and `misuse` a use of the buffer pool outside
its rules, which the flat store reports and no Python code raises. -/
inductive PyErr where
  | structError
  | keyError (msg : String)
  | indexError
  | attributeError
  | typeError (msg : String)
  | nameError (msg : String)
  | fileNotFound
  | unicodeDecodeError
  | valueError
  | overflowError
  | notImplementedError (msg : String)
  | noReturn
  | misuse
  deriving DecidableEq, Repr, Inhabited

/-- A computation that returned went through its first part. -/
theorem bind_eq_ok {E α β : Type} {x : Except E α} {f : α → Except E β} {b : β} :
    x >>= f = .ok b ↔ ∃ a, x = .ok a ∧ f a = .ok b := by
  cases x with
  | ok a => exact ⟨fun h => ⟨a, rfl, h⟩, fun ⟨_, ha, h⟩ => Except.ok.inj ha ▸ h⟩
  | error e => exact ⟨fun h => (nomatch h), fun ⟨_, ha, _⟩ => (nomatch ha)⟩

theorem ne_misuse_bind {α β : Type} {x : Except PyErr α} {f : α → Except PyErr β}
    (hx : x ≠ .error .misuse) (hf : ∀ a, f a ≠ .error .misuse) : x >>= f ≠ .error .misuse := by
  cases x with
  | ok a => exact hf a
  | error e =>
      intro h
      exact hx (congrArg Except.error (Except.error.inj h))

theorem ne_misuse_mapM {α β : Type} {f : α → Except PyErr β} (as : List α)
    (hf : ∀ a, f a ≠ .error .misuse) : as.mapM f ≠ .error .misuse := by
  induction as with
  | nil => simp [pure, Except.pure]
  | cons a as ih =>
      rw [List.mapM_cons]
      exact ne_misuse_bind (hf a) fun b => ne_misuse_bind ih fun bs => by simp [pure, Except.pure]

/-- Code on a buffer that stops with a `struct.error` only. -/
theorem ne_misuse_of_raisesOnly {α : Type} {m : Buf PyErr α} (h : Buf.RaisesOnly .structError m) (b : Bytes) :
    (m b).1 ≠ .error .misuse := by
  intro hbad
  exact nomatch (h (Prod.ext hbad rfl) : PyErr.misuse = .structError)

/-! ## Comprehensions -/

section MapM

variable {E α β : Type} {f : α → Except E β}

theorem mapM_eq_ok {as : List α} {bs : List β} :
    as.mapM f = .ok bs ↔ List.Forall₂ (fun a b => f a = .ok b) as bs := by
  induction as generalizing bs with
  | nil =>
      rw [List.mapM_nil]
      cases bs with
      | nil => simp [pure, Except.pure]
      | cons b bs => simp [pure, Except.pure]
  | cons a as ih =>
      rw [List.mapM_cons, bind_eq_ok]
      constructor
      · rintro ⟨b, hb, hrest⟩
        obtain ⟨bs', hbs', hsame⟩ := bind_eq_ok.mp hrest
        obtain rfl := Except.ok.inj hsame
        exact .cons hb (ih.mp hbs')
      · intro h
        cases h with
        | cons hb hrest => exact ⟨_, hb, bind_eq_ok.mpr ⟨_, ih.mpr hrest, rfl⟩⟩

theorem exists_forall₂ {R : α → β → Prop} {as : List α} :
    (∃ bs, List.Forall₂ R as bs) ↔ ∀ a ∈ as, ∃ b, R a b := by
  induction as with
  | nil => simp
  | cons a as ih =>
      rw [List.forall_mem_cons, ← ih]
      constructor
      · rintro ⟨bs, h⟩
        cases h with
        | cons hb hrest => exact ⟨⟨_, hb⟩, _, hrest⟩
      · rintro ⟨⟨b, hb⟩, bs, hbs⟩
        exact ⟨b :: bs, .cons hb hbs⟩

theorem exists_mapM_eq_ok {as : List α} :
    (∃ bs, as.mapM f = .ok bs) ↔ ∀ a ∈ as, ∃ b, f a = .ok b := by
  simp only [mapM_eq_ok, exists_forall₂]

theorem exists_of_forall₂ {R : α → β → Prop} {as : List α} {bs : List β} (h : List.Forall₂ R as bs)
    {b : β} (hb : b ∈ bs) : ∃ a ∈ as, R a b := by
  induction h with
  | nil => simp at hb
  | @cons a b' as bs hab _ ih =>
      rcases List.mem_cons.mp hb with rfl | hb
      · exact ⟨a, List.mem_cons_self, hab⟩
      · obtain ⟨a', ha', hab'⟩ := ih hb
        exact ⟨a', List.mem_cons_of_mem a ha', hab'⟩

/-- A relation between the items of two lists, where it is a condition on the first. -/
theorem forall₂_iff {R Q : α → β → Prop} {C : α → Prop} {as : List α} {bs : List β}
    (h : List.Forall₂ R as bs) (hQ : ∀ a ∈ as, ∀ b, R a b → (Q a b ↔ C a)) :
    List.Forall₂ Q as bs ↔ ∀ a ∈ as, C a := by
  induction h with
  | nil => simp
  | @cons a b as bs hb _ ih =>
      have hrest : List.Forall₂ Q as bs ↔ ∀ a ∈ as, C a :=
        ih fun a ha => hQ a (List.mem_cons_of_mem _ ha)
      rw [List.forall₂_cons, List.forall_mem_cons, hQ _ List.mem_cons_self _ hb, hrest]

theorem forall₂_iff_of_mapM {Q : α → β → Prop} {C : α → Prop} {as : List α} {bs : List β}
    (h : as.mapM f = .ok bs) (hQ : ∀ a ∈ as, ∀ b, f a = .ok b → (Q a b ↔ C a)) :
    List.Forall₂ Q as bs ↔ ∀ a ∈ as, C a :=
  forall₂_iff (mapM_eq_ok.mp h) hQ

/-- A loop that collects what becomes of each item. -/
theorem foldlM_collect_eq (as : List α) (bs : List β) :
    as.foldlM (fun bs a => do let b ← f a; pure (bs ++ [b])) bs = (as.mapM f).map (bs ++ ·) := by
  induction as generalizing bs with
  | nil => simp [pure, Except.pure, Except.map]
  | cons a as ih =>
      rw [List.foldlM_cons, List.mapM_cons]
      cases f a with
      | error e => rfl
      | ok b =>
          refine (ih (bs ++ [b])).trans ?_
          cases hrest : as.mapM f with
          | error e => simp [bind, Except.bind, Except.map]
          | ok bs' => simp [bind, Except.bind, pure, Except.pure, Except.map]

/-- What becomes of the items does not depend on their order. -/
theorem perm_of_mapM {as as' : List α} {bs bs' : List β} (hperm : as.Perm as')
    (h : as.mapM f = .ok bs) (h' : as'.mapM f = .ok bs') : bs.Perm bs' := by
  have hmap {as : List α} {bs : List β} (h : as.mapM f = .ok bs) :
      bs.map some = as.map fun a => (f a).toOption := by
    have hall := mapM_eq_ok.mp h
    clear h
    induction hall with
    | nil => rfl
    | cons hb _ ih => rw [List.map_cons, List.map_cons, ih, hb]; rfl
  refine (List.map_perm_map_iff (Option.some_injective β)).mp ?_
  rw [hmap h, hmap h']
  exact hperm.map _

end MapM

/-! ## `struct` -/

/-- `struct` code `H`: two bytes, unsigned. -/
def formatH : Format := ⟨2, 0, by decide, by decide⟩

/-- `struct` code `I`: four bytes, unsigned. -/
def formatI : Format := ⟨4, 0, by decide, by decide⟩

/-- `struct` code `i`: four bytes, two's complement. -/
def formati : Format := ⟨4, -2147483648, by decide, by decide⟩

/-- `struct` code `?`: one byte, `0` or `1` when packed. -/
def formatBool : Format := ⟨1, 0, by decide, by decide⟩

/-- `struct` code `d`: the eight bytes of a float. -/
def formatd : Format := ⟨8, 0, by decide, by decide⟩

@[simp] theorem formatH_width : formatH.width = 2 := rfl
@[simp] theorem formatI_width : formatI.width = 4 := rfl
@[simp] theorem formati_width : formati.width = 4 := rfl
@[simp] theorem formatBool_width : formatBool.width = 1 := rfl
@[simp] theorem formatd_width : formatd.width = 8 := rfl

theorem fits_formatH {v : Int} : formatH.Fits v ↔ 0 ≤ v ∧ v < 65536 := by
  simp [Format.Fits, formatH]

theorem fits_formatI {v : Int} : formatI.Fits v ↔ 0 ≤ v ∧ v < 4294967296 := by
  simp [Format.Fits, formatI]

theorem fits_formati {v : Int} : formati.Fits v ↔ -2147483648 ≤ v ∧ v < 2147483648 := by
  simp [Format.Fits, formati]

/-- `struct.pack_into`. -/
def packInto (fmt : Format) (off : Nat) (v : Int) : Buf PyErr Unit := Buf.pack .structError fmt off v

/-- `struct.unpack_from(..)[0]`. -/
def unpackFrom (fmt : Format) (off : Nat) : Buf PyErr Int := Buf.unpack .structError fmt off

/-- `struct.unpack_from('H', ..)[0]`, which is never negative. -/
def unpackH (off : Nat) : Buf PyErr Nat := do
  let v ← unpackFrom formatH off
  pure v.toNat

/-- `struct.unpack_from('I', ..)[0]`. -/
def unpackI (off : Nat) : Buf PyErr Nat := do
  let v ← unpackFrom formatI off
  pure v.toNat

/-- `for i in range(n): struct.pack_into(fmt, buf, offset, items[i])`, one field
behind the other. -/
def packItems (fmt : Format) (off n : Nat) (items : List Int) : Buf PyErr Unit := do
  Buf.packAll .structError fmt off (items.take n)
  if items.length < n then Buf.raise .indexError else pure ()

theorem raisesOnly_packInto (fmt : Format) (off : Nat) (v : Int) :
    Buf.RaisesOnly .structError (packInto fmt off v) := Buf.raisesOnly_pack _ _ _ _

/-- Where index `i` of a slice falls in a sequence of length `n`: negative
indices count from the end, and both ends are clipped. -/
def sliceIndex (n : Nat) (i : Int) : Nat :=
  if i < 0 then (n + i).toNat else min i.toNat n

/-- `buf[i:j] = data` of a bytearray; the buffer changes its length when `data`
is not as long as the slice. -/
def setSlice (i j : Int) (data : Bytes) : Buf PyErr Unit := fun buf =>
  let start := sliceIndex buf.length i
  let stop := max start (sliceIndex buf.length j)
  (.ok (), buf.take start ++ (data ++ buf.drop stop))

/-- `bytes(n)`. -/
def zeros (n : Nat) : Bytes := List.replicate n 0

@[simp] theorem length_zeros (n : Nat) : (zeros n).length = n := by simp [zeros]

theorem unpackH_of_unpack {off : Nat} {buf : Bytes} {n : Nat}
    (h : unpackFrom formatH off buf = (.ok (n : Int), buf)) : unpackH off buf = (.ok n, buf) := by
  rw [unpackH, Buf.bind_ok h]
  simp

/-- Reading leaves the buffer as it is. -/
theorem unpackH_snd (off : Nat) (buf : Bytes) : (unpackH off buf).2 = buf := by
  by_cases hend : off + formatH.width ≤ buf.length
  · have hread : unpackFrom formatH off buf = (.ok _, buf) := Buf.unpack_ok hend
    rw [unpackH, Buf.bind_ok hread]
    rfl
  · have hread : unpackFrom formatH off buf = (.error .structError, buf) := if_neg hend
    rw [unpackH, Buf.bind_error hread]

theorem setSlice_of_le {off : Nat} {data buf : Bytes} (h : off + data.length ≤ buf.length) :
    setSlice off (off + data.length) data buf = (.ok (), overwrite buf off data) := by
  have hstart : sliceIndex buf.length off = off := by
    simp only [sliceIndex, if_neg (Int.not_lt.mpr (Int.natCast_nonneg off)), Int.toNat_natCast]
    omega
  have hstop : sliceIndex buf.length (off + data.length) = off + data.length := by
    simp only [sliceIndex, if_neg (show ¬ ((off : Int) + data.length < 0) by omega)]
    omega
  simp only [setSlice, hstart, hstop, overwrite]
  congr 4
  omega

/-! ## Dictionaries -/

/-- A `dict`: its items in the order in which the keys were first assigned. -/
abbrev Dict (K V : Type) : Type := List (K × V)

namespace Dict

variable {K V : Type} [DecidableEq K]

/-- `d.get(key)`. -/
def get? (d : Dict K V) (key : K) : Option V := (d.find? (·.1 = key)).map Prod.snd

/-- `d[key] = value`. -/
def set : Dict K V → K → V → Dict K V
  | [], key, value => [(key, value)]
  | item :: rest, key, value =>
      if item.1 = key then (key, value) :: rest else item :: set rest key value

/-- `del d[key]`. -/
def del (d : Dict K V) (key : K) : Dict K V := d.filter (·.1 ≠ key)

/-- `key in d`. -/
def has (d : Dict K V) (key : K) : Bool := d.any (·.1 = key)

@[simp] theorem get?_nil (key : K) : get? ([] : Dict K V) key = none := rfl

theorem get?_cons (item : K × V) (d : Dict K V) (key : K) :
    get? (item :: d) key = if item.1 = key then some item.2 else get? d key := by
  by_cases h : item.1 = key <;> simp [get?, h]

theorem get?_set (d : Dict K V) (key : K) (value : V) (key' : K) :
    (d.set key value).get? key' = if key = key' then some value else d.get? key' := by
  induction d with
  | nil => simp [set, get?_cons]
  | cons item d ih =>
      by_cases hitem : item.1 = key
      · subst hitem
        simp only [set, if_true, get?_cons]
        split <;> rfl
      · simp only [set, if_neg hitem, get?_cons, ih]
        by_cases hkey' : item.1 = key'
        · have hne : key ≠ key' := fun h => hitem (hkey'.trans h.symm)
          simp [hkey', hne]
        · simp [hkey']

theorem mem_of_get? {d : Dict K V} {key : K} {value : V} (h : d.get? key = some value) :
    (key, value) ∈ d := by
  induction d with
  | nil => simp at h
  | cons item d ih =>
      rw [get?_cons] at h
      split at h
      · rename_i hitem
        obtain rfl := Option.some.inj h
        exact hitem ▸ List.mem_cons_self
      · exact List.mem_cons_of_mem _ (ih h)

/-- With every key once, an item is found under its key. -/
theorem get?_of_mem {d : Dict K V} (hnodup : (d.map Prod.fst).Nodup) {key : K} {value : V}
    (h : (key, value) ∈ d) : d.get? key = some value := by
  induction d with
  | nil => simp at h
  | cons item d ih =>
      rw [List.map_cons, List.nodup_cons] at hnodup
      rw [get?_cons]
      rcases List.mem_cons.mp h with rfl | h
      · rw [if_pos rfl]
      · have hne : item.1 ≠ key := by
          rintro rfl
          exact hnodup.1 (List.mem_map.mpr ⟨_, h, rfl⟩)
        rw [if_neg hne, ih hnodup.2 h]

theorem has_iff {d : Dict K V} {key : K} : d.has key = true ↔ ∃ value, d.get? key = some value := by
  induction d with
  | nil => simp [has]
  | cons item d ih =>
      have hcons : has (item :: d) key = (decide (item.1 = key) || has d key) := rfl
      rw [hcons, Bool.or_eq_true, ih, get?_cons]
      by_cases hitem : item.1 = key
      · simp [hitem]
      · simp [hitem]

theorem has_iff_mem {d : Dict K V} {key : K} : d.has key = true ↔ key ∈ d.map Prod.fst := by
  simp [has]

/-- A new key comes last. -/
theorem set_of_not_mem {d : Dict K V} {key : K} (h : key ∉ d.map Prod.fst) (value : V) :
    d.set key value = d ++ [(key, value)] := by
  induction d with
  | nil => rfl
  | cons item d ih =>
      rw [List.map_cons, List.mem_cons, not_or] at h
      rw [set, if_neg (Ne.symm h.1), ih h.2, List.cons_append]

end Dict

end DBEngine
