import DBEngine.Python
import Mathlib.Data.Finset.Sort
import Mathlib.Data.Fintype.Basic

/-!
# The LRU-K replacer

The evictable frames are a set; the order in which Python iterates over it is
not fixed, so `evict` takes it as an argument and every result below is for any
order.
-/

set_option autoImplicit false

namespace DBEngine

/-- `NUM_FRAMES`. -/
def numFrames : Nat := 1024

/-- `K`. -/
def lruK : Nat := 2

/-- The frames of the pool. -/
abbrev FrameId : Type := Fin numFrames

/-- Frame `0`, the value `evict_id` starts from. -/
def frameZero : FrameId := ⟨0, by decide⟩

/-- `deque(maxlen=n).append(x)`. -/
def dequeAppend (n : Nat) (q : List Nat) (x : Nat) : List Nat :=
  (q ++ [x]).drop ((q ++ [x]).length - n)

/-- `LRUKReplacer`. -/
structure LRUKReplacer where
  history : FrameId → List Nat
  evictable : Finset FrameId
  currentTime : Nat

/-- What the loop of `evict` carries: `evict_id`, `last_use` (`none` is
infinity) and `found_inf`. -/
structure Victim where
  evictId : FrameId
  lastUse : Option Nat
  foundInf : Bool
  deriving DecidableEq

namespace LRUKReplacer

/-- `LRUKReplacer.__init__`. -/
def new : LRUKReplacer := ⟨fun _ => [], ∅, 0⟩

/-- `record_access`. -/
def recordAccess (frameId : FrameId) (r : LRUKReplacer) : LRUKReplacer :=
  { r with
    history := Function.update r.history frameId
      (dequeAppend lruK (r.history frameId) r.currentTime)
    currentTime := r.currentTime + 1 }

/-- `set_evictable`. -/
def setEvictable (frameId : FrameId) (evictable : Bool) (r : LRUKReplacer) : LRUKReplacer :=
  { r with
    evictable := if evictable then insert frameId r.evictable else r.evictable.erase frameId }

/-- `t < last_use`. -/
def usedBefore (t : Nat) : Option Nat → Bool
  | none => true
  | some u => t < u

/-- One turn of the loop of `evict`; `queue[0]` of an empty queue is an error. -/
def evictStep (history : FrameId → List Nat) (v : Victim) (frameId : FrameId) :
    Except PyErr Victim :=
  match (history frameId).head? with
  | none => .error .indexError
  | some first =>
      if (history frameId).length < lruK then
        if v.foundInf = false ∨ usedBefore first v.lastUse = true then
          .ok ⟨frameId, some first, true⟩
        else .ok v
      else if v.foundInf = false ∧ usedBefore first v.lastUse = true then
        .ok ⟨frameId, some first, v.foundInf⟩
      else .ok v

/-- The loop of `evict`. -/
def evictLoop (history : FrameId → List Nat) : Victim → List FrameId → Except PyErr Victim
  | v, [] => .ok v
  | v, frameId :: rest =>
      match evictStep history v frameId with
      | .error e => .error e
      | .ok v' => evictLoop history v' rest

/-- `evict`, with the order in which the evictable set is iterated. -/
def evict (order : List FrameId) (r : LRUKReplacer) :
    Except PyErr (Option FrameId) × LRUKReplacer :=
  if r.evictable.card = 0 then (.ok none, r)
  else
    match evictLoop r.history ⟨frameZero, none, false⟩ order with
    | .error e => (.error e, r)
    | .ok v =>
        (.ok (some v.evictId),
          { r with
            evictable := r.evictable.erase v.evictId
            history := Function.update r.history v.evictId [] })

theorem dequeAppend_ne_nil {n : Nat} (hn : 0 < n) (q : List Nat) (x : Nat) :
    dequeAppend n q x ≠ [] := by
  intro h
  have hlen : (dequeAppend n q x).length = 0 := by rw [h]; rfl
  simp only [dequeAppend, List.length_drop, List.length_append, List.length_singleton] at hlen
  omega

/-- The first frame looked at is always taken. -/
theorem evictStep_first {history : FrameId → List Nat} {v : Victim} {frameId : FrameId}
    (hh : history frameId ≠ []) (hv : v.lastUse = none ∧ v.foundInf = false) :
    ∃ v', evictStep history v frameId = .ok v' ∧ v'.evictId = frameId := by
  obtain ⟨first, rest, hq⟩ := List.exists_cons_of_ne_nil hh
  unfold evictStep
  rw [hq]
  simp only [List.head?_cons, hv.1, hv.2, usedBefore]
  split <;> simp

/-- A later turn keeps the victim or takes the frame looked at. -/
theorem evictStep_later {history : FrameId → List Nat} {v : Victim} {frameId : FrameId}
    (hh : history frameId ≠ []) :
    ∃ v', evictStep history v frameId = .ok v' ∧ (v' = v ∨ v'.evictId = frameId) := by
  obtain ⟨first, rest, hq⟩ := List.exists_cons_of_ne_nil hh
  unfold evictStep
  rw [hq]
  simp only [List.head?_cons]
  split <;> split <;> simp

/-- Once a victim of the set is chosen, the loop ends with one. -/
theorem evictLoop_mem {history : FrameId → List Nat} {s : Finset FrameId} :
    ∀ (order : List FrameId) (v : Victim), v.evictId ∈ s →
      (∀ f ∈ order, f ∈ s ∧ history f ≠ []) →
      ∃ v', evictLoop history v order = .ok v' ∧ v'.evictId ∈ s := by
  intro order
  induction order with
  | nil => exact fun v hv _ => ⟨v, rfl, hv⟩
  | cons f rest ih =>
      intro v hv hall
      obtain ⟨hfs, hfh⟩ := hall f List.mem_cons_self
      obtain ⟨v', hstep, hv'⟩ := evictStep_later (v := v) hfh
      have hmem : v'.evictId ∈ s := by
        rcases hv' with rfl | hid
        · exact hv
        · rwa [hid]
      simp only [evictLoop, hstep]
      exact ih v' hmem fun g hg => hall g (List.mem_cons_of_mem _ hg)

/-- With a non-empty history for every evictable frame, `evict` returns one of
them, makes it unevictable and forgets its history. -/
theorem evict_some {r : LRUKReplacer} {order : List FrameId}
    (horder : ∀ f, f ∈ order ↔ f ∈ r.evictable) (hne : r.evictable.Nonempty)
    (hhist : ∀ f ∈ r.evictable, r.history f ≠ []) :
    ∃ f ∈ r.evictable, r.evict order = (.ok (some f),
      { r with
        evictable := r.evictable.erase f
        history := Function.update r.history f [] }) := by
  have hcard : r.evictable.card ≠ 0 := Finset.card_ne_zero.mpr hne
  obtain ⟨g, hg⟩ := hne
  cases order with
  | nil => exact absurd ((horder g).mpr hg) (by simp)
  | cons f rest =>
      have hf : f ∈ r.evictable := (horder f).mp List.mem_cons_self
      obtain ⟨v, hstep, hid⟩ := evictStep_first
        (v := ⟨frameZero, none, false⟩) (hhist f hf) ⟨rfl, rfl⟩
      obtain ⟨v', hloop, hmem⟩ := evictLoop_mem (s := r.evictable) rest v
        (by rwa [hid]) (fun h hh =>
          have hev := (horder h).mp (List.mem_cons_of_mem _ hh)
          ⟨hev, hhist h hev⟩)
      refine ⟨v'.evictId, hmem, ?_⟩
      simp only [evict, if_neg hcard, evictLoop, hstep, hloop]

theorem evict_none {r : LRUKReplacer} {order : List FrameId} (h : r.evictable = ∅) :
    r.evict order = (.ok none, r) := by
  simp [evict, h]

end LRUKReplacer

/-- The order in which Python iterates over a set of frames: any enumeration of
the set, and a possibly different one at every moment. -/
structure SetOrder where
  iter : Nat → Finset FrameId → List FrameId
  mem_iter : ∀ t s f, f ∈ iter t s ↔ f ∈ s

/-- Iteration by increasing frame number. -/
def SetOrder.increasing : SetOrder where
  iter _ s := s.sort (· ≤ ·)
  mem_iter _ _ _ := Finset.mem_sort _

end DBEngine
