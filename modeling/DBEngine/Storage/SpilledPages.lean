import DBEngine.Storage.HeapFailures

/-!
# What a tuple too long leaves of a new page

The bytes of a tuple are written from the end of the page towards its front.  Up to 4096
bytes they stay within the page, and a slot points to them when the free space cannot be
written.  A longer tuple starts in front of the page, where Python counts from the end
again, and no slot is written: what stands on the page then depends on the tuple.
-/

set_option autoImplicit false

namespace DBEngine

open ByteBuffer Paged

/-- No slot of the page has a tuple. -/
def ShowsNothing (b : Bytes) : Prop :=
  ∀ page, (Page.init false b).1 = .ok page → ∀ slotId < page.numSlots,
    (page.getTuple slotId b).1 = .ok none

section

variable {b data : Bytes}

/-- The number of slots is read from the first two bytes. -/
theorem numSlots_of_init {page : Page} (h : (Page.init false b).1 = .ok page) :
    (unpackH 0 b).1 = .ok page.numSlots := by
  rcases hinit : Page.init false b with ⟨r, b'⟩
  rw [hinit] at h
  subst h
  rw [Page.init, if_neg Bool.false_ne_true] at hinit
  obtain ⟨numSlots, b₁, h₀, hinit⟩ := Buf.of_bind_ok hinit
  obtain ⟨pointer, b₂, -, hinit⟩ := Buf.of_bind_ok hinit
  obtain ⟨free, b₃, -, hinit⟩ := Buf.of_bind_ok hinit
  obtain rfl : (⟨numSlots, pointer, free⟩ : Page) = page := Except.ok.inj (Prod.mk.inj hinit).1
  rw [h₀]

theorem showsNothing_of_zero (h : (unpackH 0 b).1 = .ok 0) : ShowsNothing b := by
  intro page hpage slotId hslot
  have hzero : page.numSlots = 0 := Except.ok.inj ((numSlots_of_init hpage).symm.trans h)
  omega

/-- A page whose first slot is in use. -/
theorem not_showsNothing (hlen : 12 ≤ b.length) (hcount : (unpackH 0 b).1 = .ok 1)
    (hvalid : (unpackH 10 b).1 = .ok 1) : ¬ ShowsNothing b := by
  obtain ⟨pointer, h₂⟩ := unpackH_total (b := b) 2 (by omega)
  obtain ⟨free, h₄⟩ := unpackH_total (b := b) 4 (by omega)
  obtain ⟨offset, h₆⟩ := unpackH_total (b := b) 6 (by omega)
  obtain ⟨length, h₈⟩ := unpackH_total (b := b) 8 (by omega)
  have h₀ : unpackH 0 b = (.ok 1, b) := Prod.ext hcount (unpackH_snd _ _)
  have h₁₀ : unpackH 10 b = (.ok 1, b) := Prod.ext hvalid (unpackH_snd _ _)
  have hinit : Page.init false b = (.ok ⟨1, pointer, free⟩, b) := by
    rw [Page.init, if_neg Bool.false_ne_true, Buf.bind_ok h₀, Buf.bind_ok h₂, Buf.bind_ok h₄]
    rfl
  have hget : (Page.getTuple ⟨1, pointer, free⟩ 0 b).1 = .ok (some (slice b offset length)) := by
    rw [Page.getTuple, if_neg (Nat.not_succ_le_zero 0)]
    rw [Buf.bind_ok (show unpackH (Page.slotOffset 0) b = _ from h₆),
      Buf.bind_ok (show unpackH (Page.slotOffset 0 + 2) b = _ from h₈),
      Buf.bind_ok (show unpackH (Page.slotOffset 0 + 4) b = _ from h₁₀)]
    rfl
  intro hnothing
  have hnone := hnothing ⟨1, pointer, free⟩ (by rw [hinit]) 0 Nat.one_pos
  rw [hget] at hnone
  simp at hnone

/-- A new page of a file starts with two zeros. -/
theorem init_true_zeros : ∃ raw, Page.init true (zeros pageSize) = (.ok (pageOf []), raw) ∧
    raw.length = pageSize ∧ raw.take 2 = zeros 2 := by
  have hlen : (zeros pageSize).length = 4096 := length_zeros _
  let b₁ := overwrite (zeros pageSize) 2 (formatH.encode pageSize)
  let b₂ := overwrite b₁ 4 (formatH.encode (pageSize - Page.headerSize))
  have hlen₁ : b₁.length = 4096 := by
    rw [length_overwrite (by rw [Format.length_encode, hlen]; decide), hlen]
  have hlen₂ : b₂.length = 4096 := by
    rw [length_overwrite (by rw [Format.length_encode, hlen₁]; decide), hlen₁]
  have hpack₁ : packInto formatH 2 pageSize (zeros pageSize) = (.ok (), b₁) :=
    Buf.pack_ok (by decide) (by rw [hlen]; decide)
  have hpack₂ : packInto formatH 4 (pageSize - Page.headerSize) b₁ = (.ok (), b₂) :=
    Buf.pack_ok (by decide) (by rw [hlen₁]; decide)
  refine ⟨b₂, ?_, hlen₂, ?_⟩
  · simp only [Page.init, if_true]
    rw [Buf.bind_ok hpack₁, Buf.bind_ok hpack₂]
    rfl
  · have hslice : slice b₂ 0 2 = slice (zeros pageSize) 0 2 := by
      rw [slice_overwrite_of_le (by rw [hlen₁]; decide) (by decide),
        slice_overwrite_of_le (by rw [hlen]; decide) (by decide)]
    have htake : slice (zeros pageSize) 0 2 = zeros 2 := by
      rw [slice, List.drop_zero, zeros, List.take_replicate]
      rfl
    rw [← htake, ← hslice]
    rfl

/-- A field that was written, and not written over since. -/
theorem unpackH_of_slice {off n : Nat} (hend : off + 2 ≤ b.length)
    (h : slice b off 2 = formatH.encode (n : Int)) (hn : n < 65536) : unpackH off b = (.ok n, b) := by
  refine unpackH_of_unpack ?_
  rw [unpackFrom, Buf.unpack_ok (by simpa using hend), formatH_width, h,
    Format.decode_encode (fits_formatH.mpr (by omega))]

/-- Of a tuple that reaches over the header the slot is written. -/
theorem insertTuple_over_header {raw : Bytes} (hraw : raw.length = pageSize) (hlong : 4084 < data.length)
    (hshort : data.length ≤ 4096) :
    ∃ b', (pageOf []).insertTuple data raw = (.error .structError, b') ∧ 12 ≤ b'.length ∧
      (unpackH 0 b').1 = .ok 1 ∧ (unpackH 10 b').1 = .ok 1 := by
  rw [pageSize_eq] at hraw
  have hpointer : (pageOf []).freeSpacePointer = 4096 := rfl
  have hoffset : ((4096 : Int) - data.length) = ((4096 - data.length : Nat) : Int) := by omega
  let b₁ := raw.take (4096 - data.length) ++ (data ++ raw.drop 4096)
  have hlen₁ : b₁.length = 4096 := by
    simp only [b₁, List.length_append, List.length_take, List.length_drop, hraw]
    omega
  have hset : setSlice (4096 - data.length) (4096 - data.length + data.length) data raw = (.ok (), b₁) := by
    have hstop : ((4096 : Int) - data.length + data.length) = ((4096 : Nat) : Int) := by omega
    rw [hstop, hoffset]
    simp only [setSlice, sliceIndex, hraw, Int.not_lt.mpr (Int.natCast_nonneg _), if_false, Int.toNat_natCast,
      Nat.min_self]
    have hstart : min (4096 - data.length) 4096 = 4096 - data.length := by omega
    rw [hstart, Nat.max_eq_right (by omega)]
  have hover (off : Nat) {v : Int} {c : Bytes} (hc : c.length = 4096) (hoff : off + 2 ≤ 12)
      (hv : 0 ≤ v ∧ v < 65536) : packInto formatH off v c = (.ok (), overwrite c off (formatH.encode v)) ∧
        (overwrite c off (formatH.encode v)).length = 4096 := by
    refine ⟨Buf.pack_ok (fits_formatH.mpr hv) (by rw [hc, formatH_width]; omega), ?_⟩
    rw [length_overwrite (by rw [Format.length_encode, hc, formatH_width]; omega), hc]
  have hpointerFits : (0 : Int) ≤ 4096 - data.length ∧ (4096 : Int) - data.length < 65536 := by omega
  obtain ⟨h₂, hlen₂⟩ := hover 6 hlen₁ (by omega) hpointerFits
  obtain ⟨h₃, hlen₃⟩ := hover 8 hlen₂ (by omega) (show 0 ≤ (data.length : Int) ∧ _ by omega)
  obtain ⟨h₄, hlen₄⟩ := hover 10 hlen₃ (by omega) (show (0 : Int) ≤ 1 ∧ (1 : Int) < 65536 by omega)
  obtain ⟨h₅, hlen₅⟩ := hover 0 hlen₄ (by omega) (show (0 : Int) ≤ 1 ∧ (1 : Int) < 65536 by omega)
  obtain ⟨h₆, hlen₆⟩ := hover 2 hlen₅ (by omega) hpointerFits
  generalize overwrite b₁ 6 _ = b₂ at h₂ hlen₂ h₃ hlen₃ h₄ hlen₄ h₅ hlen₅ h₆ hlen₆
  generalize overwrite b₂ 8 _ = b₃ at h₃ hlen₃ h₄ hlen₄ h₅ hlen₅ h₆ hlen₆
  -- the free space is negative
  have h₇ : ∀ c : Bytes, packInto formatH 4 (4090 - (data.length + 6 : Nat)) c = (.error .structError, c) := by
    intro c
    refine Buf.pack_error fun h => ?_
    have hnonneg := (fits_formatH.mp h.1).1
    omega
  refine ⟨_, ?_, by rw [hlen₆]; decide, ?_, ?_⟩
  · rw [Page.insertTuple, hpointer, Buf.bind_ok hset,
      Buf.bind_ok (show packInto formatH (Page.slotOffset (pageOf []).numSlots) _ b₁ = _ from h₂),
      Buf.bind_ok (show packInto formatH (Page.slotOffset (pageOf []).numSlots + 2) _ b₂ = _ from h₃),
      Buf.bind_ok (show packInto formatH (Page.slotOffset (pageOf []).numSlots + 4) _ b₃ = _ from h₄)]
    refine Buf.bind_error ?_
    rw [Page.packHeader,
      Buf.bind_ok (show packInto formatH 0 ((pageOf []).grow data.length).numSlots _ = _ from h₅),
      Buf.bind_ok (show packInto formatH 2 ((pageOf []).grow data.length).freeSpacePointer _ = _ from h₆)]
    exact h₇ _
  · rw [unpackH_of_slice (n := 1) (by rw [hlen₆]; decide) ?_ (by decide)]
    rw [slice_overwrite_of_le (by rw [hlen₅]; decide) (by decide)]
    exact slice_overwrite_self (Nat.zero_le _)
  · rw [unpackH_of_slice (n := 1) (by rw [hlen₆]; decide) ?_ (by decide)]
    rw [slice_overwrite_of_ge (by rw [hlen₅]; decide) (by rw [Format.length_encode]; decide),
      slice_overwrite_of_ge (by rw [hlen₄]; decide) (by rw [Format.length_encode]; decide)]
    exact slice_overwrite_self (by rw [hlen₃]; decide)

/-- A longer tuple is written in front of the page, and no slot for it. -/
theorem insertTuple_over_page {raw : Bytes} (hraw : raw.length = pageSize) (hlong : 4096 < data.length) :
    (pageOf []).insertTuple data raw = (.error .structError, raw.take (8192 - data.length) ++ data) := by
  rw [pageSize_eq] at hraw
  have hpointer : (pageOf []).freeSpacePointer = 4096 := rfl
  have hset : setSlice (4096 - data.length) (4096 - data.length + data.length) data raw =
      (.ok (), raw.take (8192 - data.length) ++ data) := by
    have hstop : ((4096 : Int) - data.length + data.length) = ((4096 : Nat) : Int) := by omega
    have hstart : (((4096 : Nat) : Int) + (4096 - data.length)).toNat = 8192 - data.length := by omega
    rw [hstop]
    simp only [setSlice, sliceIndex, hraw, if_pos (show (4096 : Int) - data.length < 0 by omega),
      if_neg (Int.not_lt.mpr (Int.natCast_nonneg 4096)), Int.toNat_natCast, Nat.min_self, hstart]
    rw [Nat.max_eq_right (by omega), List.drop_of_length_le (by omega), List.append_nil]
  have hslot : packInto formatH 6 (4096 - data.length) (raw.take (8192 - data.length) ++ data) =
      (.error .structError, raw.take (8192 - data.length) ++ data) := by
    refine Buf.pack_error fun h => ?_
    have hnonneg := (fits_formatH.mp h.1).1
    omega
  rw [Page.insertTuple, hpointer, Buf.bind_ok hset]
  exact Buf.bind_error (show packInto formatH (Page.slotOffset (pageOf []).numSlots) _ _ = _ from hslot)

/-- What an insert leaves of a new page shows no tuple exactly if the tuple is longer than a
page and does not itself look like a page with one. -/
theorem showsNothing_leftBy (hlong : 4084 < data.length) : ShowsNothing (HeapFile.leftBy data) ↔
    4096 < data.length ∧ ShowsNothing (zeros (8192 - data.length) ++ data) := by
  obtain ⟨raw, hinit, hraw, hzeros⟩ := init_true_zeros
  by_cases hover : 4096 < data.length
  · rw [and_iff_right hover]
    have hleft : HeapFile.leftBy data = raw.take (8192 - data.length) ++ data := by
      rw [HeapFile.leftBy, Buf.bind_ok hinit, insertTuple_over_page hraw hover]
    rw [hleft]
    by_cases hcount : 8190 < data.length
    · -- at most two bytes are left of the header, and they are zeros
      have htake : raw.take (8192 - data.length) = zeros (8192 - data.length) := by
        have hmin : min (8192 - data.length) 2 = 8192 - data.length := by omega
        have hsplit := congrArg (List.take (8192 - data.length)) hzeros
        rwa [List.take_take, zeros, List.take_replicate, hmin] at hsplit
      rw [htake]
    · -- the number of slots stays zero
      have hstart (front : Bytes) (hfront : front.take 2 = zeros 2) : ShowsNothing (front ++ data) := by
        refine showsNothing_of_zero ?_
        have hlength : 2 ≤ front.length := by
          have htwo := congrArg List.length hfront
          rw [List.length_take, length_zeros] at htwo
          omega
        have hslice : slice (front ++ data) 0 2 = formatH.encode ((0 : Nat) : Int) := by
          rw [slice, List.drop_zero, List.take_append_of_le_length hlength, hfront]
          rfl
        rw [unpackH_of_slice (by rw [List.length_append]; omega) hslice (by decide)]
      refine iff_of_true (hstart _ ?_) (hstart _ ?_)
      · rw [List.take_take, Nat.min_eq_left (by omega), hzeros]
      · rw [zeros, List.take_replicate, Nat.min_eq_left (by omega), zeros]
  · obtain ⟨b, hinsert, hlen, hcount, hvalid⟩ := insertTuple_over_header hraw hlong (Nat.not_lt.mp hover)
    have hleft : HeapFile.leftBy data = b := by
      rw [HeapFile.leftBy, Buf.bind_ok hinit, hinsert]
    rw [hleft]
    exact iff_of_false (not_showsNothing hlen hcount hvalid) fun h => hover h.1

end

end DBEngine
