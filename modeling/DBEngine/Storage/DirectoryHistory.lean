import DBEngine.Storage.DirectoryPage

/-!
# Histories of a directory

What becomes of the directory of a heap file from a new one on a zeroed page on: pages
are added in the order of their numbers and entries are updated, with arguments that may
be out of range.  Entries are written where the page number says and read one behind the
other; both agree for as many pages as have an entry on the page.
-/

set_option autoImplicit false

namespace DBEngine

open ByteBuffer

/-- A call of the directory object. -/
inductive DirectoryCall where
  | increase (pageId : Nat)
  | update (pageId : Nat) (freeSpace tupleCount : Int)
  deriving DecidableEq, Repr

/-- How many pages calls have added. -/
def DirectoryCall.added : List DirectoryCall → Nat
  | [] => 0
  | .increase _ :: rest => added rest + 1
  | .update _ _ _ :: rest => added rest

namespace DirectoryPage

/-- What a call returns, and the object afterwards. -/
def perform (dir : DirectoryPage) : DirectoryCall → Buf PyErr (Option Bool × DirectoryPage)
  | .increase pageId => do
      let dir ← dir.increasePageCount pageId
      pure (none, dir)
  | .update pageId freeSpace tupleCount => dir.updateDirectory pageId freeSpace tupleCount

/-- The calls that may follow: the page added is the next one and has an entry on the page,
and numbers to be recorded are under 65536, or negative. -/
def Follows (calls : List DirectoryCall) : DirectoryCall → Prop
  | .increase pageId => pageId = DirectoryCall.added calls + 1 ∧ pageId ≤ 682
  | .update _ freeSpace tupleCount => freeSpace < 65536 ∧ tupleCount < 65536

/-- The directory object and the bytes after such calls. -/
inductive Reached : List DirectoryCall → DirectoryPage → Bytes → Prop
  | new {dir : DirectoryPage} {b : Bytes} (h : init true (zeros pageSize) = (.ok dir, b)) : Reached [] dir b
  | call {calls : List DirectoryCall} {dir dir' : DirectoryPage} {b b' : Bytes} {call : DirectoryCall}
      {answer : Option Bool} (h : Reached calls dir b) (hfollows : Follows calls call)
      (hcall : dir.perform call b = (.ok (answer, dir'), b')) : Reached (calls ++ [call]) dir' b'

/-- The page has that much space, as far as the directory has recorded. -/
def Suffices (dir : DirectoryPage) (pageId : Nat) (size : Int) : Prop :=
  ∃ free, dir.freeSpace.get? pageId = some free ∧ size ≤ free

/-- `find_page_with_enough_space` gives the smallest page number with that much space. -/
def FindsSmallest (dir : DirectoryPage) (size : Int) : Prop :=
  match dir.findPageWithEnoughSpace size with
  | some pageId => dir.Suffices pageId size ∧ ∀ smaller < pageId, ¬ dir.Suffices smaller size
  | none => ∀ pageId, ¬ dir.Suffices pageId size

/-! ## The dictionary -/

section

variable {entries : List DirEntry}

theorem suffices_zero_iff {size : Int} (hsize : 0 < size) : ¬ (directoryOf entries).Suffices 0 size := by
  rintro ⟨free, hfree, hle⟩
  obtain rfl : (0 : Int) = free := Option.some.inj hfree
  omega

theorem suffices_succ_iff (p : Nat) (size : Nat) : (directoryOf entries).Suffices (p + 1) size ↔
    ∃ e, entries[p]? = some e ∧ size ≤ e.free := by
  have hread : (directoryOf entries).freeSpace.get? (p + 1) = entries[p]?.map fun e => (e.free : Int) := by
    rw [directoryOf, Dict.get?_cons, if_neg (show ¬ 0 = p + 1 by omega), Nat.add_comm p 1, get?_freeFrom]
  unfold Suffices
  rw [hread]
  constructor
  · rintro ⟨free, hfree, hle⟩
    obtain ⟨e, he, rfl⟩ := Option.map_eq_some_iff.mp hfree
    exact ⟨e, he, Int.ofNat_le.mp hle⟩
  · rintro ⟨e, he, hle⟩
    exact ⟨e.free, by rw [he, Option.map_some], Int.ofNat_le.mpr hle⟩

theorem findsSmallest_directoryOf (entries : List DirEntry) {size : Int} (hsize : 0 < size) :
    (directoryOf entries).FindsSmallest size := by
  obtain ⟨n, rfl⟩ := Int.eq_ofNat_of_zero_le hsize.le
  have hfind := find_directoryOf entries (Int.natCast_pos.mp hsize)
  unfold FindsSmallest
  rw [hfind, firstFit]
  cases hidx : entries.findIdx? fun e => decide (n ≤ e.free) with
  | none =>
      rintro (_ | p)
      · exact suffices_zero_iff hsize
      · rw [suffices_succ_iff]
        rintro ⟨e, he, hle⟩
        have hno := List.findIdx?_eq_none_iff.mp hidx e (List.mem_of_getElem? he)
        simp [hle] at hno
  | some p =>
      obtain ⟨hp, hfit, hfirst⟩ := List.findIdx?_eq_some_iff_getElem.mp hidx
      refine ⟨(suffices_succ_iff p n).mpr ⟨_, List.getElem?_eq_getElem hp, by simpa using hfit⟩, ?_⟩
      rintro (_ | q) hq
      · exact suffices_zero_iff hsize
      · rw [suffices_succ_iff]
        rintro ⟨e, he, hle⟩
        obtain ⟨hq', rfl⟩ := List.getElem?_eq_some_iff.mp he
        have hno := hfirst q (Nat.lt_of_succ_lt_succ hq)
        simp [hle] at hno

end

/-! ## Calls -/

section

variable {calls : List DirectoryCall} {dir : DirectoryPage} {b : Bytes} {entries : List DirEntry}

theorem added_append (calls : List DirectoryCall) (call : DirectoryCall) :
    DirectoryCall.added (calls ++ [call]) = DirectoryCall.added calls + DirectoryCall.added [call] := by
  induction calls with
  | nil => simp [DirectoryCall.added]
  | cons first rest ih =>
      cases first with
      | increase pageId =>
          rw [List.cons_append, DirectoryCall.added, ih, DirectoryCall.added]
          omega
      | update pageId freeSpace tupleCount =>
          rw [List.cons_append, DirectoryCall.added, ih, DirectoryCall.added]

/-- An update within range changes one entry, any other changes nothing. -/
theorem updateDirectory_cases (h : DirRep b entries) (pageId : Nat) {freeSpace tupleCount : Int}
    (hfree : freeSpace < 65536) (htuples : tupleCount < 65536) :
    (directoryOf entries).updateDirectory pageId freeSpace tupleCount b =
        (.ok (some false, directoryOf entries), b) ∨
    ∃ entries' b', (directoryOf entries).updateDirectory pageId freeSpace tupleCount b =
        (.ok (none, directoryOf entries'), b') ∧
      DirRep b' entries' ∧ entries'.length = entries.length := by
  by_cases hbad : pageId = 0 ∨ (directoryOf entries).pageCount ≤ pageId ∨ freeSpace < 0 ∨ tupleCount < 0
  · left
    rw [updateDirectory, if_pos hbad]
    rfl
  · right
    simp only [not_or, not_le, not_lt, pageCount_directoryOf] at hbad
    obtain ⟨hzero, hcount, hpos, hpos'⟩ := hbad
    obtain ⟨p, rfl⟩ := Nat.exists_eq_succ_of_ne_zero hzero
    obtain ⟨free, rfl⟩ := Int.eq_ofNat_of_zero_le hpos
    obtain ⟨slots, rfl⟩ := Int.eq_ofNat_of_zero_le hpos'
    have hfits : free < 65536 ∧ slots < 65536 := ⟨by omega, by omega⟩
    obtain ⟨b', hrun, hrep⟩ := updateDirectory_of_rep (p := p) (e := ⟨free, slots⟩) h (by omega) hfits
    exact ⟨_, b', hrun, hrep, List.length_set⟩

/-- A call that may follow returns, keeps the listing, and leaves no trace when it returns
false. -/
theorem perform_of_rep (h : DirRep b entries) (hadded : entries.length = DirectoryCall.added calls)
    {call : DirectoryCall} (hfollows : Follows calls call) :
    ∃ answer entries' b', (directoryOf entries).perform call b = (.ok (answer, directoryOf entries'), b') ∧
      DirRep b' entries' ∧ entries'.length = DirectoryCall.added (calls ++ [call]) ∧
      (answer = some false → directoryOf entries' = directoryOf entries ∧ b' = b) := by
  cases call with
  | increase pageId =>
      obtain ⟨rfl, hmost⟩ := hfollows
      rw [← hadded] at hmost ⊢
      obtain ⟨b', hrun, hrep⟩ := increasePageCount_of_rep h (by rw [pageSize_eq]; omega)
      have hperform : (directoryOf entries).perform (.increase (entries.length + 1)) b =
          (.ok (none, directoryOf (entries ++ [⟨pageSize, 0⟩])), b') := by
        rw [perform, Buf.bind_ok hrun, Buf.pure_apply]
      refine ⟨none, _, b', hperform, hrep, ?_, fun hno => by simp at hno⟩
      rw [added_append, ← hadded, List.length_append]
      rfl
  | update pageId freeSpace tupleCount =>
      have hsame : DirectoryCall.added (calls ++ [.update pageId freeSpace tupleCount]) =
          DirectoryCall.added calls := by rw [added_append]; rfl
      rw [hsame, ← hadded]
      rcases updateDirectory_cases h pageId hfollows.1 hfollows.2 with hrun | ⟨entries', b', hrun, hrep, hlen⟩
      · exact ⟨some false, entries, b, hrun, h, rfl, fun _ => ⟨rfl, rfl⟩⟩
      · exact ⟨none, entries', b', hrun, hrep, hlen, fun hno => by simp at hno⟩

/-- At every moment the page lists what the object has. -/
theorem Reached.rep (h : Reached calls dir b) : ∃ entries, dir = directoryOf entries ∧
    DirRep b entries ∧ entries.length = DirectoryCall.added calls := by
  induction h with
  | new h =>
      obtain ⟨b', hrun, hrep⟩ := init_newDirectory (b := zeros pageSize) (length_zeros _)
      obtain ⟨hdir, rfl⟩ := Prod.mk.inj (h.symm.trans hrun)
      exact ⟨[], Except.ok.inj hdir, hrep, rfl⟩
  | call _ hfollows hcall ih =>
      obtain ⟨entries, rfl, hrep, hadded⟩ := ih
      obtain ⟨answer, entries', b'', hrun, hrep', hadded', -⟩ := perform_of_rep hrep hadded hfollows
      obtain ⟨hresult, rfl⟩ := Prod.mk.inj (hcall.symm.trans hrun)
      exact ⟨entries', (Prod.mk.inj (Except.ok.inj hresult)).2, hrep', hadded'⟩

/-- After any calls the directory reads back from its bytes as it is; calls that may follow
return, and leave no trace when they return false; and for every positive size the page
found, on the object or on one read from the same bytes, is the smallest with that space. -/
theorem Reached.rereads (h : Reached calls dir b) :
    init false b = (.ok dir, b) ∧
    (∀ call, Follows calls call → ∃ answer dir' b', dir.perform call b = (.ok (answer, dir'), b') ∧
      (answer = some false → dir' = dir ∧ b' = b)) ∧
    ∀ reread b', init false b = (.ok reread, b') → ∀ size : Int, 0 < size →
      dir.FindsSmallest size ∧ reread.FindsSmallest size := by
  obtain ⟨entries, rfl, hrep, hadded⟩ := h.rep
  have hread := deserialize_of_rep hrep
  refine ⟨hread, fun call hfollows => ?_, fun reread b' hreread size hsize => ?_⟩
  · obtain ⟨answer, entries', b', hrun, -, -, htrace⟩ := perform_of_rep hrep hadded hfollows
    exact ⟨answer, _, b', hrun, htrace⟩
  · obtain rfl : directoryOf entries = reread :=
      Except.ok.inj (Prod.mk.inj (hread.symm.trans hreread)).1
    have hfinds := findsSmallest_directoryOf entries hsize
    exact ⟨hfinds, hfinds⟩

/-- Two pages, and an update of a page that does not exist. -/
theorem rereads_two : ∃ (dir : DirectoryPage) (b : Bytes),
    Reached [.increase 1, .increase 2, .update 7 3 (-1)] dir b ∧
    init false b = (.ok dir, b) ∧
    (∀ call, Follows [.increase 1, .increase 2, .update 7 3 (-1)] call →
      ∃ answer dir' b', dir.perform call b = (.ok (answer, dir'), b') ∧
        (answer = some false → dir' = dir ∧ b' = b)) ∧
    ∀ reread b', init false b = (.ok reread, b') → ∀ size : Int, 0 < size →
      dir.FindsSmallest size ∧ reread.FindsSmallest size := by
  obtain ⟨b₀, h₀, hrep₀⟩ := init_newDirectory (b := zeros pageSize) (length_zeros _)
  have hfirst : Follows [] (.increase 1) := ⟨rfl, by decide⟩
  obtain ⟨_, _, b₁, h₁, hrep₁, hadded₁, -⟩ := perform_of_rep hrep₀ rfl hfirst
  have hsecond : Follows [.increase 1] (.increase 2) := ⟨rfl, by decide⟩
  obtain ⟨_, _, b₂, h₂, hrep₂, hadded₂, -⟩ := perform_of_rep hrep₁ hadded₁ hsecond
  have hthird : Follows [.increase 1, .increase 2] (.update 7 3 (-1)) := ⟨by decide, by decide⟩
  obtain ⟨_, _, b₃, h₃, -, -, -⟩ := perform_of_rep hrep₂ hadded₂ hthird
  have hreached := (((Reached.new h₀).call hfirst h₁).call hsecond h₂).call hthird h₃
  exact ⟨_, b₃, hreached, Reached.rereads hreached⟩

end

end DirectoryPage

end DBEngine
