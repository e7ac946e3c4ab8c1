import Mathlib.Data.List.Basic
import Mathlib.Tactic.Linarith

/-!
# Byte buffers and fixed-width integer fields

A buffer is a list of bytes.  A field format is a width and a least value; it
writes an integer as that many bytes, least significant first, and reads it
back.  `Buf` is the monad of code that reads and writes one buffer in place and
may stop with an error: what was written before the error stays written.

Nothing here knows what the fields mean.
-/

set_option autoImplicit false

namespace ByteBuffer

/-- A byte buffer. -/
abbrev Bytes : Type := List UInt8

/-! ## Slices -/

/-- The `len` bytes of `buf` that start at `off`. -/
def slice (buf : Bytes) (off len : Nat) : Bytes := (buf.drop off).take len

/-- `buf` with `data` written over the bytes that start at `off`. -/
def overwrite (buf : Bytes) (off : Nat) (data : Bytes) : Bytes :=
  buf.take off ++ (data ++ buf.drop (off + data.length))

@[simp] theorem length_overwrite {buf data : Bytes} {off : Nat}
    (h : off + data.length ≤ buf.length) : (overwrite buf off data).length = buf.length := by
  simp only [overwrite, List.length_append, List.length_take, List.length_drop]
  omega

theorem length_slice {buf : Bytes} {off len : Nat} (h : off + len ≤ buf.length) :
    (slice buf off len).length = len := by
  simp only [slice, List.length_take, List.length_drop]
  omega

/-- What was written is read back. -/
theorem slice_overwrite_self {buf data : Bytes} {off : Nat} (h : off ≤ buf.length) :
    slice (overwrite buf off data) off data.length = data := by
  have htake : (buf.take off).length = off := by simpa using h
  unfold slice overwrite
  rw [List.drop_append_of_le_length (Nat.le_of_eq htake.symm)]
  simp

/-- A slice that ends where the write starts, or before, is unchanged. -/
theorem slice_overwrite_of_le {buf data : Bytes} {off i len : Nat} (hoff : off ≤ buf.length)
    (h : i + len ≤ off) : slice (overwrite buf off data) i len = slice buf i len := by
  have htake : (buf.take off).length = off := by simpa using hoff
  unfold slice overwrite
  rw [List.drop_append_of_le_length (by omega), List.take_append_of_le_length]
  · rw [List.drop_take, List.take_take]
    congr 1
    omega
  · simp only [List.length_drop, htake]
    omega

/-- A slice that starts where the write ends, or later, is unchanged. -/
theorem slice_overwrite_of_ge {buf data : Bytes} {off i len : Nat} (hoff : off ≤ buf.length)
    (h : off + data.length ≤ i) : slice (overwrite buf off data) i len = slice buf i len := by
  have htake : (buf.take off).length = off := by simpa using hoff
  unfold slice overwrite
  congr 1
  rw [List.drop_append, htake, List.drop_append, List.drop_drop,
    List.drop_eq_nil_of_le (by omega : (buf.take off).length ≤ i),
    List.drop_eq_nil_of_le (by omega : data.length ≤ i - off)]
  simp only [List.nil_append]
  congr 1
  omega

/-- A slice beside the write is unchanged. -/
theorem slice_overwrite_of_disjoint {buf data : Bytes} {off i len : Nat} (hoff : off ≤ buf.length)
    (h : i + len ≤ off ∨ off + data.length ≤ i) :
    slice (overwrite buf off data) i len = slice buf i len :=
  h.elim (slice_overwrite_of_le hoff) (slice_overwrite_of_ge hoff)

/-- A slice is its first part and the rest. -/
theorem slice_add (buf : Bytes) (off m n : Nat) :
    slice buf off (m + n) = slice buf off m ++ slice buf (off + m) n := by
  simp only [slice, List.take_add, List.drop_drop]

/-- A slice of a slice. -/
theorem slice_slice {buf : Bytes} {off len i n : Nat} (h : i + n ≤ len) :
    slice (slice buf off len) i n = slice buf (off + i) n := by
  simp only [slice, List.drop_take, List.take_take, List.drop_drop]
  congr 1
  omega

/-- A slice between two known pieces. -/
theorem slice_append_mid (pre mid suf : Bytes) :
    slice (pre ++ (mid ++ suf)) pre.length mid.length = mid := by
  simp [slice]

/-- Writing right behind a known prefix. -/
theorem overwrite_append (pre rest data : Bytes) :
    overwrite (pre ++ rest) pre.length data = pre ++ (data ++ rest.drop data.length) := by
  simp [overwrite, List.drop_append]

/-- Two writes, one right behind the other, are one write. -/
theorem overwrite_overwrite {buf d₁ d₂ : Bytes} {off : Nat} (h : off ≤ buf.length) :
    overwrite (overwrite buf off d₁) (off + d₁.length) d₂ = overwrite buf off (d₁ ++ d₂) := by
  have hpre : (buf.take off ++ d₁).length = off + d₁.length := by
    simp only [List.length_append, List.length_take]
    omega
  have hsplit : overwrite buf off d₁ = (buf.take off ++ d₁) ++ buf.drop (off + d₁.length) := by
    simp [overwrite]
  rw [hsplit, ← hpre, overwrite_append, hpre]
  simp [overwrite, List.drop_drop, Nat.add_assoc]

/-! ## Integer fields -/

/-- `width` bytes of `n`, least significant first. -/
def encodeLE : Nat → Nat → Bytes
  | 0, _ => []
  | width + 1, n => UInt8.ofNat n :: encodeLE width (n / 256)

/-- The number whose bytes are given, least significant first. -/
def decodeLE : Bytes → Nat
  | [] => 0
  | b :: bs => b.toNat + 256 * decodeLE bs

@[simp] theorem length_encodeLE (width n : Nat) : (encodeLE width n).length = width := by
  induction width generalizing n with
  | zero => rfl
  | succ width ih => simp [encodeLE, ih]

theorem decodeLE_encodeLE {width n : Nat} (h : n < 256 ^ width) :
    decodeLE (encodeLE width n) = n := by
  induction width generalizing n with
  | zero =>
      have : n = 0 := by simpa using h
      simp [encodeLE, decodeLE, this]
  | succ width ih =>
      have hq : n / 256 < 256 ^ width := by
        rw [Nat.div_lt_iff_lt_mul (by decide)]
        simpa [Nat.pow_succ] using h
      have hb : (UInt8.ofNat n).toNat = n % 256 := by simp
      simp only [encodeLE, decodeLE, ih hq, hb]
      omega

theorem decodeLE_lt (bs : Bytes) : decodeLE bs < 256 ^ bs.length := by
  induction bs with
  | nil => simp [decodeLE]
  | cons b bs ih =>
      have hb : b.toNat < 256 := b.toNat_lt
      simp only [decodeLE, List.length_cons, Nat.pow_succ]
      omega

theorem decodeLE_replicate_zero (n : Nat) : decodeLE (List.replicate n 0) = 0 := by
  induction n with
  | zero => rfl
  | succ n ih => simp [List.replicate_succ, decodeLE, ih]

theorem decodeLE_eq_zero_iff {bs : Bytes} : decodeLE bs = 0 ↔ bs = List.replicate bs.length 0 := by
  induction bs with
  | nil => simp [decodeLE]
  | cons b bs ih =>
      have hbyte : b.toNat = 0 ↔ b = 0 := by rw [← UInt8.toNat_inj]; rfl
      rw [List.length_cons, List.replicate_succ, List.cons.injEq, ← ih, ← hbyte, decodeLE]
      omega

/-- A fixed-width integer field: `width` bytes for the integers from `lo` on. -/
structure Format where
  width : Nat
  lo : Int
  lo_nonpos : lo ≤ 0
  hi_nonneg : 0 ≤ lo + 256 ^ width

namespace Format

/-- The integers the field can hold. -/
def Fits (fmt : Format) (v : Int) : Prop := fmt.lo ≤ v ∧ v < fmt.lo + 256 ^ fmt.width

instance (fmt : Format) (v : Int) : Decidable (fmt.Fits v) :=
  inferInstanceAs (Decidable (_ ∧ _))

/-- The bytes of `v`; two's complement for negative values. -/
def encode (fmt : Format) (v : Int) : Bytes :=
  encodeLE fmt.width (v % 256 ^ fmt.width).toNat

/-- The integer held in the given bytes. -/
def decode (fmt : Format) (bs : Bytes) : Int :=
  if (decodeLE bs : Int) < fmt.lo + 256 ^ fmt.width then decodeLE bs
  else decodeLE bs - 256 ^ fmt.width

@[simp] theorem length_encode (fmt : Format) (v : Int) : (fmt.encode v).length = fmt.width := by
  simp [encode]

theorem decode_encode {fmt : Format} {v : Int} (h : fmt.Fits v) :
    fmt.decode (fmt.encode v) = v := by
  have hpos : (0 : Int) < 256 ^ fmt.width := by positivity
  have hlo := fmt.lo_nonpos
  have hhi := fmt.hi_nonneg
  obtain ⟨hge, hlt⟩ := h
  have hmod0 : 0 ≤ v % 256 ^ fmt.width := Int.emod_nonneg _ (by omega)
  have hmod1 : v % 256 ^ fmt.width < 256 ^ fmt.width := Int.emod_lt_of_pos _ hpos
  have hnat : decodeLE (fmt.encode v) = (v % 256 ^ fmt.width).toNat := by
    refine decodeLE_encodeLE ?_
    have : ((v % 256 ^ fmt.width).toNat : Int) < ((256 ^ fmt.width : Nat) : Int) := by
      rw [Int.toNat_of_nonneg hmod0]
      simpa using hmod1
    exact_mod_cast this
  have hint : (decodeLE (fmt.encode v) : Int) = v % 256 ^ fmt.width := by
    rw [hnat, Int.toNat_of_nonneg hmod0]
  unfold decode
  rw [hint]
  by_cases hv : 0 ≤ v
  · -- a non-negative value is its own residue
    have hres : v % 256 ^ fmt.width = v := Int.emod_eq_of_lt hv (by omega)
    rw [hres, if_pos hlt]
  · -- a negative value is stored as its residue, which is past the top of the range
    have hres : v % 256 ^ fmt.width = v + 256 ^ fmt.width := by
      rw [← Int.add_emod_right]
      exact Int.emod_eq_of_lt (by omega) (by omega)
    rw [hres, if_neg (by omega)]
    omega

/-- What the bytes of a field hold is an integer that the field can hold. -/
theorem fits_decode (fmt : Format) {bs : Bytes} (h : bs.length = fmt.width) :
    fmt.Fits (fmt.decode bs) := by
  have hlt : (decodeLE bs : Int) < 256 ^ fmt.width := by
    have hbound := decodeLE_lt bs
    rw [h] at hbound
    exact_mod_cast hbound
  have hlo := fmt.lo_nonpos
  have hhi := fmt.hi_nonneg
  unfold decode Fits
  split
  · omega
  · omega

end Format

/-! ## Code over one buffer -/

/-- Code that reads and writes one buffer in place and returns `α` or stops
with an error; the buffer it leaves is returned in both cases. -/
def Buf (E α : Type) : Type := Bytes → Except E α × Bytes

namespace Buf

variable {E α β : Type}

instance : Monad (Buf E) where
  pure a := fun buf => (.ok a, buf)
  bind m f := fun buf =>
    match m buf with
    | (.ok a, buf') => f a buf'
    | (.error e, buf') => (.error e, buf')

/-- Stop with an error. -/
def raise (e : E) : Buf E α := fun buf => (.error e, buf)

@[simp] theorem pure_apply (a : α) (buf : Bytes) : (pure a : Buf E α) buf = (.ok a, buf) := rfl

theorem bind_apply (m : Buf E α) (f : α → Buf E β) (buf : Bytes) :
    (m >>= f) buf = match m buf with
      | (.ok a, buf') => f a buf'
      | (.error e, buf') => (.error e, buf') := rfl

theorem bind_ok {m : Buf E α} {f : α → Buf E β} {buf buf' : Bytes} {a : α}
    (h : m buf = (.ok a, buf')) : (m >>= f) buf = f a buf' := by
  rw [bind_apply, h]

theorem bind_error {m : Buf E α} {f : α → Buf E β} {buf buf' : Bytes} {e : E}
    (h : m buf = (.error e, buf')) : (m >>= f) buf = (.error e, buf') := by
  rw [bind_apply, h]

/-- A computation that returned went through its first part. -/
theorem of_bind_ok {m : Buf E α} {f : α → Buf E β} {buf buf' : Bytes} {b : β}
    (h : (m >>= f) buf = (.ok b, buf')) :
    ∃ a mid, m buf = (.ok a, mid) ∧ f a mid = (.ok b, buf') := by
  rw [bind_apply] at h
  rcases hm : m buf with ⟨_ | a, mid⟩
  · simp [hm] at h
  · exact ⟨a, mid, rfl, by simpa [hm] using h⟩

/-- The only error that a computation can stop with. -/
def RaisesOnly (e : E) (m : Buf E α) : Prop :=
  ∀ ⦃buf buf' : Bytes⦄ ⦃e' : E⦄, m buf = (.error e', buf') → e' = e

theorem raisesOnly_pure (e : E) (a : α) : RaisesOnly e (pure a : Buf E α) := by
  intro buf buf' e' h
  simp at h

theorem RaisesOnly.bind {e : E} {m : Buf E α} {f : α → Buf E β} (hm : RaisesOnly e m)
    (hf : ∀ a, RaisesOnly e (f a)) : RaisesOnly e (m >>= f) := by
  intro buf buf' e' h
  rw [bind_apply] at h
  rcases hres : m buf with ⟨_ | a, mid⟩
  · rw [hres] at h
    obtain rfl := Except.error.inj (Prod.mk.inj h).1
    exact hm hres
  · rw [hres] at h
    exact hf a h

/-- The computation never returns, and stops with this error. -/
def AlwaysRaises (e : E) (m : Buf E α) : Prop := ∀ buf, ∃ buf', m buf = (.error e, buf')

theorem AlwaysRaises.bind {e : E} {m : Buf E α} (hm : AlwaysRaises e m) (f : α → Buf E β) :
    AlwaysRaises e (m >>= f) := by
  intro buf
  obtain ⟨buf', h⟩ := hm buf
  exact ⟨buf', bind_error h⟩

/-- What stands behind a computation that can stop with the same error only. -/
theorem RaisesOnly.alwaysRaises_bind {e : E} {m : Buf E α} {f : α → Buf E β} (hm : RaisesOnly e m)
    (hf : ∀ a, AlwaysRaises e (f a)) : AlwaysRaises e (m >>= f) := by
  intro buf
  rcases hres : m buf with ⟨_ | a, mid⟩
  · obtain rfl := hm hres
    exact ⟨mid, bind_error hres⟩
  · obtain ⟨buf', h⟩ := hf a mid
    exact ⟨buf', (bind_ok hres).trans h⟩

/-- Write one field; a value outside the range of the field or a field past the
end of the buffer is the error `e` and writes nothing. -/
def pack (e : E) (fmt : Format) (off : Nat) (v : Int) : Buf E Unit := fun buf =>
  if fmt.Fits v ∧ off + fmt.width ≤ buf.length then (.ok (), overwrite buf off (fmt.encode v))
  else (.error e, buf)

/-- Read one field; a field past the end of the buffer is the error `e`. -/
def unpack (e : E) (fmt : Format) (off : Nat) : Buf E Int := fun buf =>
  if off + fmt.width ≤ buf.length then (.ok (fmt.decode (slice buf off fmt.width)), buf)
  else (.error e, buf)

/-- Write a list of values into consecutive fields of one format. -/
def packAll (e : E) (fmt : Format) : Nat → List Int → Buf E Unit
  | _, [] => pure ()
  | off, v :: vs => do
      pack e fmt off v
      packAll e fmt (off + fmt.width) vs

/-- Read `n` consecutive fields of one format. -/
def unpackAll (e : E) (fmt : Format) : Nat → Nat → Buf E (List Int)
  | _, 0 => pure []
  | off, n + 1 => do
      let v ← unpack e fmt off
      let vs ← unpackAll e fmt (off + fmt.width) n
      pure (v :: vs)

theorem pack_ok {e : E} {fmt : Format} {off : Nat} {v : Int} {buf : Bytes}
    (hv : fmt.Fits v) (hoff : off + fmt.width ≤ buf.length) :
    pack e fmt off v buf = (.ok (), overwrite buf off (fmt.encode v)) := by
  simp [pack, hv, hoff]

theorem pack_error {e : E} {fmt : Format} {off : Nat} {v : Int} {buf : Bytes}
    (h : ¬ (fmt.Fits v ∧ off + fmt.width ≤ buf.length)) :
    pack e fmt off v buf = (.error e, buf) := by
  simp only [pack, if_neg h]

theorem raisesOnly_pack (e : E) (fmt : Format) (off : Nat) (v : Int) :
    RaisesOnly e (pack e fmt off v) := by
  intro buf buf' e' h
  unfold pack at h
  split at h
  · simp at h
  · exact (Except.error.inj (Prod.mk.inj h).1).symm

/-- A field that was written has a value in its range. -/
theorem fits_of_pack {e : E} {fmt : Format} {off : Nat} {v : Int} {buf buf' : Bytes}
    (h : pack e fmt off v buf = (.ok (), buf')) : fmt.Fits v := by
  unfold pack at h
  split at h
  · rename_i hfits
    exact hfits.1
  · simp at h

theorem raisesOnly_unpack (e : E) (fmt : Format) (off : Nat) : RaisesOnly e (unpack e fmt off) := by
  intro buf buf' e' h
  unfold unpack at h
  split at h
  · simp at h
  · exact (Except.error.inj (Prod.mk.inj h).1).symm

/-- However it ends, a computation leaves the buffer with at least `n` bytes. -/
def KeepsLength (n : Nat) (m : Buf E α) : Prop := ∀ buf : Bytes, n ≤ buf.length → n ≤ (m buf).2.length

theorem keepsLength_pure (n : Nat) (a : α) : KeepsLength n (pure a : Buf E α) := fun _ h => h

theorem KeepsLength.bind {n : Nat} {m : Buf E α} {f : α → Buf E β} (hm : KeepsLength n m)
    (hf : ∀ a, KeepsLength n (f a)) : KeepsLength n (m >>= f) := by
  intro buf h
  have hmid := hm buf h
  rw [bind_apply]
  rcases hres : m buf with ⟨e | a, mid⟩
  · rwa [hres] at hmid
  · rw [hres] at hmid
    exact hf a mid hmid

theorem keepsLength_pack (n : Nat) (e : E) (fmt : Format) (off : Nat) (v : Int) :
    KeepsLength n (pack e fmt off v) := by
  intro buf h
  unfold pack
  split
  · rename_i hfits
    rwa [length_overwrite (by rw [Format.length_encode]; exact hfits.2)]
  · exact h

theorem unpack_ok {e : E} {fmt : Format} {off : Nat} {buf : Bytes}
    (hoff : off + fmt.width ≤ buf.length) :
    unpack e fmt off buf = (.ok (fmt.decode (slice buf off fmt.width)), buf) := by
  simp [unpack, hoff]

/-! ### Fields written one behind the other -/

/-- The bytes of a list of values in consecutive fields. -/
def encodeAll (fmt : Format) (vs : List Int) : Bytes := vs.flatMap fmt.encode

@[simp] theorem encodeAll_nil (fmt : Format) : encodeAll fmt [] = [] := rfl

@[simp] theorem encodeAll_cons (fmt : Format) (v : Int) (vs : List Int) :
    encodeAll fmt (v :: vs) = fmt.encode v ++ encodeAll fmt vs := rfl

@[simp] theorem length_encodeAll (fmt : Format) (vs : List Int) :
    (encodeAll fmt vs).length = fmt.width * vs.length := by
  induction vs with
  | nil => simp
  | cons v vs ih => simp [ih, Nat.mul_succ, Nat.add_comm]

/-- One field behind a known prefix: it is written there, or the buffer is left
as it was. -/
theorem pack_append {e : E} {fmt : Format} {v : Int} {pre rest : Bytes} {off : Nat}
    (hoff : off = pre.length) (hlen : fmt.width ≤ rest.length) :
    pack e fmt off v (pre ++ rest) =
      if fmt.Fits v then (.ok (), pre ++ (fmt.encode v ++ rest.drop fmt.width))
      else (.error e, pre ++ rest) := by
  subst hoff
  by_cases hv : fmt.Fits v
  · rw [pack_ok hv (by simpa using hlen), overwrite_append, if_pos hv, Format.length_encode]
  · rw [pack_error (fun h => hv h.1), if_neg hv]

/-- A list of values behind a known prefix, all of them in range. -/
theorem packAll_append {e : E} {fmt : Format} {vs : List Int} {pre rest : Bytes} {off : Nat}
    (hoff : off = pre.length) (hlen : fmt.width * vs.length ≤ rest.length)
    (hvs : ∀ v ∈ vs, fmt.Fits v) :
    packAll e fmt off vs (pre ++ rest) =
      (.ok (), pre ++ (encodeAll fmt vs ++ rest.drop (fmt.width * vs.length))) := by
  induction vs generalizing pre rest off with
  | nil => simp [packAll]
  | cons v vs ih =>
      have hlen' : fmt.width + fmt.width * vs.length ≤ rest.length := by
        rw [List.length_cons, Nat.mul_succ] at hlen
        omega
      rw [packAll, bind_ok (by
        rw [pack_append hoff (by omega), if_pos (hvs v List.mem_cons_self)])]
      rw [← List.append_assoc, ih (by simp [hoff]) (by simp; omega)
        (fun w hw => hvs w (List.mem_cons_of_mem _ hw))]
      simp [List.drop_drop, Nat.mul_succ, Nat.add_comm]

theorem raisesOnly_packAll (e : E) (fmt : Format) (off : Nat) (vs : List Int) :
    RaisesOnly e (packAll e fmt off vs) := by
  induction vs generalizing off with
  | nil => exact raisesOnly_pure e ()
  | cons v vs ih => exact (raisesOnly_pack e fmt off v).bind fun _ => ih (off + fmt.width)

/-- A value out of range among those to be written is an error. -/
theorem packAll_error {e : E} {fmt : Format} {vs : List Int} {buf : Bytes} {off : Nat}
    (hvs : ∃ v ∈ vs, ¬ fmt.Fits v) : ∃ buf', packAll e fmt off vs buf = (.error e, buf') := by
  induction vs generalizing buf off with
  | nil => simp at hvs
  | cons v vs ih =>
      by_cases hv : fmt.Fits v ∧ off + fmt.width ≤ buf.length
      · rw [packAll, bind_ok (pack_ok hv.1 hv.2)]
        obtain ⟨w, hw, hfit⟩ := hvs
        rcases List.mem_cons.mp hw with rfl | hw
        · exact absurd hv.1 hfit
        · exact ih ⟨w, hw, hfit⟩
      · exact ⟨buf, by rw [packAll, bind_error (pack_error hv)]⟩

/-- A list of values inside the buffer, all of them in range. -/
theorem packAll_ok {e : E} {fmt : Format} {vs : List Int} {buf : Bytes} {off : Nat}
    (hvs : ∀ v ∈ vs, fmt.Fits v) (hoff : off + fmt.width * vs.length ≤ buf.length) :
    packAll e fmt off vs buf = (.ok (), overwrite buf off (encodeAll fmt vs)) := by
  induction vs generalizing buf off with
  | nil => simp [packAll, overwrite]
  | cons v vs ih =>
      rw [List.length_cons, Nat.mul_succ] at hoff
      have hhead : pack e fmt off v buf = (.ok (), overwrite buf off (fmt.encode v)) :=
        pack_ok (hvs v List.mem_cons_self) (by omega)
      have hlen : (overwrite buf off (fmt.encode v)).length = buf.length :=
        length_overwrite (by rw [Format.length_encode]; omega)
      have htail : packAll e fmt (off + fmt.width) vs (overwrite buf off (fmt.encode v)) = _ :=
        ih (fun w hw => hvs w (List.mem_cons_of_mem _ hw)) (by omega)
      have hjoin : overwrite (overwrite buf off (fmt.encode v)) (off + (fmt.encode v).length)
          (encodeAll fmt vs) = _ := overwrite_overwrite (by omega)
      rw [Format.length_encode] at hjoin
      rw [packAll, bind_ok hhead, htail, hjoin, encodeAll_cons]

/-- One of several fields in a slice. -/
theorem slice_encodeAll {fmt : Format} {vs : List Int} {i : Nat} (hi : i < vs.length) :
    slice (encodeAll fmt vs) (fmt.width * i) fmt.width = fmt.encode vs[i] := by
  induction vs generalizing i with
  | nil => simp at hi
  | cons v vs ih =>
      cases i with
      | zero => simp [slice]
      | succ i =>
          have hdrop : (fmt.encode v ++ encodeAll fmt vs).drop (fmt.width * (i + 1)) =
              (encodeAll fmt vs).drop (fmt.width * i) := by
            rw [Nat.mul_succ, Nat.add_comm, ← List.drop_drop]
            simp
          have htail := ih (i := i) (by simpa using hi)
          simpa [slice, hdrop] using htail

/-- A field of a slice whose bytes are known. -/
theorem unpack_of_slice {e : E} {fmt : Format} {vs : List Int} {buf : Bytes} {off : Nat}
    (hslice : slice buf off (fmt.width * vs.length) = encodeAll fmt vs)
    (hend : off + fmt.width * vs.length ≤ buf.length) {i : Nat} (hi : i < vs.length)
    (hv : fmt.Fits vs[i]) :
    unpack e fmt (off + fmt.width * i) buf = (.ok vs[i], buf) := by
  have hle : fmt.width * i + fmt.width ≤ fmt.width * vs.length := by
    rw [← Nat.mul_succ]
    exact Nat.mul_le_mul_left _ hi
  have hfield : slice buf (off + fmt.width * i) fmt.width = fmt.encode vs[i] := by
    rw [← slice_slice hle, hslice, slice_encodeAll hi]
  rw [unpack_ok (by omega), hfield, Format.decode_encode hv]

/-- A field behind a known prefix is read back. -/
theorem unpack_append {e : E} {fmt : Format} {v : Int} {pre suf : Bytes} {off : Nat}
    (hoff : off = pre.length) (hv : fmt.Fits v) :
    unpack e fmt off (pre ++ (fmt.encode v ++ suf)) =
      (.ok v, pre ++ (fmt.encode v ++ suf)) := by
  subst hoff
  have hslice := slice_append_mid pre (fmt.encode v) suf
  rw [Format.length_encode] at hslice
  rw [unpack_ok (by simp), hslice, Format.decode_encode hv]

/-- Consecutive fields behind a known prefix are read back. -/
theorem unpackAll_append {e : E} {fmt : Format} {vs : List Int} {pre suf : Bytes} {off n : Nat}
    (hoff : off = pre.length) (hn : n = vs.length) (hvs : ∀ v ∈ vs, fmt.Fits v) :
    unpackAll e fmt off n (pre ++ (encodeAll fmt vs ++ suf)) =
      (.ok vs, pre ++ (encodeAll fmt vs ++ suf)) := by
  subst hn
  induction vs generalizing pre off with
  | nil => simp [unpackAll]
  | cons v vs ih =>
      have hhead : unpack e fmt off (pre ++ (fmt.encode v ++ (encodeAll fmt vs ++ suf))) = _ :=
        unpack_append hoff (hvs v List.mem_cons_self)
      have htail : unpackAll e fmt (off + fmt.width) vs.length
          ((pre ++ fmt.encode v) ++ (encodeAll fmt vs ++ suf)) = _ :=
        ih (by simp [hoff]) fun w hw => hvs w (List.mem_cons_of_mem _ hw)
      simp only [List.append_assoc] at htail
      simp only [List.length_cons, unpackAll, encodeAll_cons, List.append_assoc]
      rw [bind_ok hhead, bind_ok htail, pure_apply]

end Buf

end ByteBuffer
