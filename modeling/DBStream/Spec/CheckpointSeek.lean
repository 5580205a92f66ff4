import DBStream.Spec.BlockContents
import DBStream.Spec.ScanCorrect
import Mathlib.Data.List.GetD
import Mathlib.Data.List.Pairwise

/-!
# Seeks by log offset

The offsets of a chain go up from record to record, so an ascending seek has to find the least
one that is not below its target and a descending seek the greatest that is not above it.
`seekCheckpoint_iff` says when it does: the target has to lie between `m_minLogOffset` and
`m_maxLogOffset` of a block, since the iterator of a block turns down every other target, and
that block has to be solid (the appending block reads its records under the wrong ids).
-/

namespace DBStream.Native

/-! ## The search inside a block -/

/-- Record `p` is the one to find among records with the offsets `os`. -/
def BoundAt (flag : Nat) (os : List Nat) (logOffset p : Nat) : Prop :=
  p < os.length ∧
    if increase flag then logOffset ≤ os.getD p 0 ∧ ∀ j < p, os.getD j 0 < logOffset
    else os.getD p 0 ≤ logOffset ∧ ∀ j, p < j → j < os.length → logOffset < os.getD j 0

section

variable {I : IndexImpl} {os : List Nat} {logOffset flag : Nat} {offsetAt : Nat → Exec Nat}

theorem getD_lt_getD (hos : os.Pairwise (· < ·)) {i j : Nat} (hij : i < j) (hj : j < os.length) :
    os.getD i 0 < os.getD j 0 := by
  rw [List.getD_eq_getElem _ _ (by omega), List.getD_eq_getElem _ _ hj]
  exact List.pairwise_iff_getElem.mp hos i j (by omega) hj hij

theorem getD_le_getD (hos : os.Pairwise (· ≤ ·)) {i j : Nat} (hij : i ≤ j) (hj : j < os.length) :
    os.getD i 0 ≤ os.getD j 0 := by
  obtain hlt | rfl := Nat.lt_or_eq_of_le hij
  · rw [List.getD_eq_getElem _ _ (by omega), List.getD_eq_getElem _ _ hj]
    exact List.pairwise_iff_getElem.mp hos i j (by omega) hj hlt
  · exact Nat.le_refl _

theorem lt_countP_iff (hos : os.Pairwise (· ≤ ·)) {P : Nat → Bool}
    (hP : ∀ x y, x ≤ y → P y = true → P x = true) {i : Nat} (hi : i < os.length) :
    i < os.countP P ↔ P (os.getD i 0) = true := by
  induction os generalizing i with
  | nil => cases hi
  | cons o os ih =>
    obtain ⟨hle, hos⟩ := List.pairwise_cons.mp hos
    rw [List.countP_cons]
    by_cases ho : P o = true
    · rw [if_pos ho]
      cases i with
      | zero => simp [ho]
      | succ i =>
        rw [List.getD_cons_succ, ← ih hos (Nat.lt_of_succ_lt_succ hi)]
        omega
    · have hnone : ∀ o' ∈ os, P o' ≠ true := fun o' ho' h => ho (hP o o' (hle o' ho') h)
      rw [if_neg ho, List.countP_eq_zero.mpr hnone]
      constructor
      · intro h
        omega
      · intro h
        cases i with
        | zero => exact absurd h ho
        | succ i =>
          rw [List.getD_cons_succ, List.getD_eq_getElem _ _ (Nat.lt_of_succ_lt_succ hi)] at h
          exact absurd h (hnone _ (List.getElem_mem _))

/-- The number of offsets below the target: that of the first record that is not. -/
def offsetsBelow (os : List Nat) (logOffset : Nat) : Nat := os.countP fun o => decide (o < logOffset)

/-- The number of offsets up to the target. -/
def offsetsUpTo (os : List Nat) (logOffset : Nat) : Nat := os.countP fun o => decide (o ≤ logOffset)

theorem lt_offsetsBelow (logOffset : Nat) (hos : os.Pairwise (· ≤ ·)) {i : Nat} (hi : i < os.length) :
    i < offsetsBelow os logOffset ↔ os.getD i 0 < logOffset := by
  unfold offsetsBelow
  rw [lt_countP_iff hos (fun x y hxy hy => by simp only [decide_eq_true_eq] at hy ⊢; omega) hi,
    decide_eq_true_eq]

theorem lt_offsetsUpTo (logOffset : Nat) (hos : os.Pairwise (· ≤ ·)) {i : Nat} (hi : i < os.length) :
    i < offsetsUpTo os logOffset ↔ os.getD i 0 ≤ logOffset := by
  unfold offsetsUpTo
  rw [lt_countP_iff hos (fun x y hxy hy => by simp only [decide_eq_true_eq] at hy ⊢; omega) hi,
    decide_eq_true_eq]

theorem offsetsUpTo_le (os : List Nat) (logOffset : Nat) : offsetsUpTo os logOffset ≤ os.length :=
  List.countP_le_length

/-- The records with the target as their offset, if there are any, are those from
    `offsetsBelow` to `offsetsUpTo`, and the halving of the search comes to record `p` first. -/
def HitsAt (os : List Nat) (logOffset p : Nat) : Prop :=
  offsetsBelow os logOffset < offsetsUpTo os logOffset ∧
    firstProbe (offsetsBelow os logOffset) (offsetsUpTo os logOffset) (os.length + 1) 0
      ((os.length : Int) - 1) = some (p : Int)

theorem BoundAt.unique {p q : Nat} (hp : BoundAt flag os logOffset p)
    (hq : BoundAt flag os logOffset q) : p = q := by
  obtain ⟨hplt, hp⟩ := hp
  obtain ⟨hqlt, hq⟩ := hq
  by_cases hflag : increase flag = true
  · simp only [hflag, if_true] at hp hq
    by_contra hne
    obtain hlt | hlt := Nat.lt_or_gt_of_ne hne
    · have := hq.2 p hlt
      omega
    · have := hp.2 q hlt
      omega
  · simp only [hflag, Bool.false_eq_true, if_false] at hp hq
    by_contra hne
    obtain hlt | hlt := Nat.lt_or_gt_of_ne hne
    · have := hp.2 q hlt hqlt
      omega
    · have := hq.2 p hlt hplt
      omega

instance (os : List Nat) (logOffset p : Nat) : Decidable (HitsAt os logOffset p) :=
  inferInstanceAs (Decidable (_ ∧ _))

variable {p : Nat}

theorem HitsAt.mem (h : HitsAt os logOffset p) :
    offsetsBelow os logOffset ≤ p ∧ p < offsetsUpTo os logOffset := by
  obtain ⟨h₁, h₂⟩ := firstProbe_mem h.2
  omega

theorem HitsAt.lt_length (h : HitsAt os logOffset p) : p < os.length :=
  Nat.lt_of_lt_of_le h.mem.2 (offsetsUpTo_le os logOffset)

theorem HitsAt.getD_eq (hos : os.Pairwise (· ≤ ·)) (h : HitsAt os logOffset p) :
    os.getD p 0 = logOffset := by
  obtain ⟨hbelow, hupto⟩ := h.mem
  have h₁ := (lt_offsetsBelow logOffset hos h.lt_length).not.mp (by omega)
  have h₂ := (lt_offsetsUpTo logOffset hos h.lt_length).mp hupto
  omega

theorem searchOffset_order (logOffset : Nat) (hos : os.Pairwise (· ≤ ·))
    (hat : ∀ i < os.length, offsetAt i = .ok (os.getD i 0)) :
    SearchOrder (fun i : Int => do
      let offset ← offsetAt i.toNat
      return compare logOffset offset)
      (fun i => compare logOffset (os.getD i.toNat 0)) 0 ((os.length : Int) - 1) := by
  constructor
  · intro i hlo hhi
    simp only [hat i.toNat (by omega), Exec.ok_bind]
    rfl
  · intro i j hlo hij hhi hj
    have := getD_le_getD hos (show i.toNat ≤ j.toNat by omega) (by omega)
    rw [Nat.compare_eq_gt] at hj ⊢
    omega
  · intro i j hlo hij hhi hi
    have := getD_le_getD hos (show i.toNat ≤ j.toNat by omega) (by omega)
    rw [Nat.compare_eq_lt] at hi ⊢
    omega

theorem searchOffset_run (logOffset : Nat) (hos : os.Pairwise (· ≤ ·))
    (hat : ∀ i < os.length, offsetAt i = .ok (os.getD i 0)) :
    SearchRun (fun i : Int => do
      let offset ← offsetAt i.toNat
      return compare logOffset offset) 0 ((os.length : Int) - 1) (offsetsBelow os logOffset)
      (offsetsUpTo os logOffset) := by
  have horder := searchOffset_order logOffset hos hat
  constructor
  · intro i hlo hhi hi
    have := (lt_offsetsBelow logOffset hos (show i.toNat < os.length by omega)).mp
      (show i.toNat < offsetsBelow os logOffset by omega)
    rw [horder.total i hlo hhi, Nat.compare_eq_gt.mpr this]
  · intro i hlo hhi hi hi'
    have h₁ := (lt_offsetsBelow logOffset hos
      (show i.toNat < os.length by omega)).not.mp (by omega)
    have h₂ := (lt_offsetsUpTo logOffset hos (show i.toNat < os.length by omega)).mp
      (show i.toNat < offsetsUpTo os logOffset by omega)
    rw [horder.total i hlo hhi, Nat.compare_eq_eq.mpr (by omega)]
  · intro i hlo hhi hi _
    have := (lt_offsetsUpTo logOffset hos
      (show i.toNat < os.length by omega)).not.mp (by omega)
    rw [horder.total i hlo hhi, Nat.compare_eq_lt.mpr (by omega)]

/-- For a target between the first and the last offset: the search hits a record that has it, or
    ends next to the gap it falls into. -/
theorem searchOffset_between (hos : os.Pairwise (· ≤ ·))
    (hat : ∀ i < os.length, offsetAt i = .ok (os.getD i 0)) (hpos : 0 < os.length)
    (hfirst : os.getD 0 0 ≤ logOffset) (hlast : logOffset ≤ os.getD (os.length - 1) 0) :
    ∃ found lo hi, ∃ m : Nat, SolidBlockIterator.searchOffset offsetAt logOffset (os.length + 1) 0
        ((os.length : Int) - 1) 0 = .ok (found, m, lo, hi) ∧ m < os.length ∧
      ((found = true ∧ HitsAt os logOffset m) ∨
       (found = false ∧ 0 ≤ hi ∧ lo ≤ (os.length : Int) - 1 ∧
        ∃ c, 0 < c ∧ c < os.length ∧ os.getD (c - 1) 0 < logOffset ∧ logOffset < os.getD c 0 ∧
          (m = c ∨ m + 1 = c))) := by
  by_cases hrun : offsetsBelow os logOffset < offsetsUpTo os logOffset
  · -- some record has it
    have hle := offsetsUpTo_le os logOffset
    obtain ⟨p, hp⟩ := firstProbe_exists (Int.ofNat_lt.mpr hrun) (Int.natCast_nonneg _)
      (show (offsetsUpTo os logOffset : Int) ≤ (os.length : Int) - 1 + 1 by omega)
      (show (os.length : Int) - 1 + 1 - 0 < (os.length + 1 : Nat) by omega)
    obtain ⟨lo, hi, hsearch⟩ := binarySearch_of_firstProbe Fault.endless
      (searchOffset_run logOffset hos hat) (Int.le_refl _) (Int.le_refl _) hp 0
    obtain ⟨h₁, h₂⟩ := firstProbe_mem hp
    have hp₀ : ((p.toNat : Nat) : Int) = p := Int.toNat_of_nonneg (by omega)
    refine ⟨true, lo, hi, p.toNat, ?_, by omega, .inl ⟨rfl, hrun, ?_⟩⟩
    · rw [hp₀]
      exact hsearch
    · rw [hp₀]
      exact hp
  obtain ⟨found, m, lo, hi, hsearch, hcase⟩ := binarySearch_spec Fault.endless
    (searchOffset_order logOffset hos hat)
    (SearchInv.start _ (by omega) 0)
    (show (os.length : Int) - 1 + 1 - 0 < (os.length + 1 : Nat) by omega)
  obtain ⟨-, hm₀, hm, heq⟩ | ⟨rfl, hcross, hinv⟩ := hcase
  · -- no record has it
    rw [Nat.compare_eq_eq] at heq
    have h₁ := (lt_offsetsBelow logOffset hos
      (show m.toNat < os.length by omega)).not.mpr (by omega)
    have h₂ := (lt_offsetsUpTo logOffset hos
      (show m.toNat < os.length by omega)).mpr (by omega)
    omega
  · -- neither end of the block is on the far side of the gap
    have hlo : 0 < lo := by
      by_contra hle
      have h := hinv.above 0 (by omega) (by omega)
      rw [Nat.compare_eq_lt] at h
      simp only [Int.toNat_zero] at h
      omega
    have hhi : lo ≤ (os.length : Int) - 1 := by
      by_contra hgt
      have h := hinv.below ((os.length : Int) - 1) (by omega) (by omega)
      rw [Nat.compare_eq_gt] at h
      rw [show ((os.length : Int) - 1).toNat = os.length - 1 by omega] at h
      omega
    have hbelow := hinv.below (lo - 1) (by omega) (by omega)
    have habove := hinv.above lo (by omega) hhi
    rw [Nat.compare_eq_gt] at hbelow
    rw [Nat.compare_eq_lt] at habove
    rw [show (lo - 1).toNat = lo.toNat - 1 by omega] at hbelow
    obtain ⟨hm₀, hm, hprobe⟩ : 0 ≤ m ∧ m ≤ (os.length : Int) - 1 ∧ (m + 1 = lo ∨ m = hi + 1) := by
      obtain ⟨h, -⟩ | h := hinv.probe
      · omega
      · exact h
    refine ⟨false, lo, hi, m.toNat, ?_, by omega, .inr ⟨rfl, by omega, hhi, lo.toNat, by omega,
      by omega, hbelow, habove, by omega⟩⟩
    rw [Int.toNat_of_nonneg hm₀]
    exact hsearch

theorem BoundAt.of_eq (hos : os.Pairwise (· < ·)) (hp : p < os.length)
    (heq : os.getD p 0 = logOffset) : BoundAt flag os logOffset p := by
  refine ⟨hp, ?_⟩
  split
  · refine ⟨Nat.le_of_eq heq.symm, ?_⟩
    intro j hj
    rw [← heq]
    exact getD_lt_getD hos hj hp
  · refine ⟨Nat.le_of_eq heq, ?_⟩
    intro j hj hlt
    rw [← heq]
    exact getD_lt_getD hos hj hlt

theorem BoundAt.of_gap (flag : Nat) (hos : os.Pairwise (· ≤ ·)) {c : Nat} (hc₀ : 0 < c) (hc : c < os.length)
    (hbelow : os.getD (c - 1) 0 < logOffset) (habove : logOffset < os.getD c 0) :
    BoundAt flag os logOffset (if increase flag then c else c - 1) := by
  by_cases hflag : increase flag = true
  · refine ⟨by simp only [hflag, if_true, hc], ?_⟩
    simp only [hflag, if_true]
    refine ⟨Nat.le_of_lt habove, ?_⟩
    intro j hj
    have := getD_le_getD hos (show j ≤ c - 1 by omega) (by omega)
    omega
  · simp only [hflag, Bool.false_eq_true, if_false]
    refine ⟨by omega, ?_⟩
    simp only [hflag, Bool.false_eq_true, if_false]
    refine ⟨Nat.le_of_lt hbelow, ?_⟩
    intro j hj hlt
    have := getD_le_getD hos (show c ≤ j by omega) hlt
    omega

/-- Where the search leads: to a hit, or, if no record has the target as its offset, to the record to
    find. -/
def SeekPlace (flag : Nat) (os : List Nat) (logOffset p : Nat) : Prop :=
  HitsAt os logOffset p ∨
    (offsetsUpTo os logOffset ≤ offsetsBelow os logOffset ∧ BoundAt flag os logOffset p)

theorem SeekPlace.unique {p q : Nat} (hp : SeekPlace flag os logOffset p)
    (hq : SeekPlace flag os logOffset q) : p = q := by
  rcases hp with hp | ⟨hnone, hp⟩ <;> rcases hq with hq | ⟨hnone', hq⟩
  · have hsame := hp.2.symm.trans hq.2
    exact Int.ofNat_inj.mp (Option.some.inj hsame)
  · exact absurd hp.1 (Nat.not_lt.mpr hnone')
  · exact absurd hq.1 (Nat.not_lt.mpr hnone)
  · exact hp.unique hq

theorem offsetsUpTo_le_of_gap (hos : os.Pairwise (· ≤ ·)) {c : Nat} (hc₀ : 0 < c)
    (hc : c < os.length) (hbelow : os.getD (c - 1) 0 < logOffset)
    (habove : logOffset < os.getD c 0) :
    offsetsUpTo os logOffset ≤ offsetsBelow os logOffset := by
  have h₁ := (lt_offsetsBelow logOffset hos (show c - 1 < os.length by omega)).mpr hbelow
  have h₂ := (lt_offsetsUpTo logOffset hos hc).not.mpr (by omega)
  omega

theorem SeekPlace.boundAt (hos : os.Pairwise (· < ·))
    (h : SeekPlace flag os logOffset p) : BoundAt flag os logOffset p := by
  rcases h with h | ⟨-, h⟩
  · exact .of_eq hos h.lt_length (h.getD_eq (hos.imp Nat.le_of_lt))
  · exact h

/-! ## The seek in a block -/

/-- The offsets `os` are those of the records of the block, and its bounds are those `append` has
    left: 0 counts as no offset for the lower one. -/
structure LogBlock.Holds (b : LogBlock I) (os : List Nat) : Prop where
  nonempty : 0 < os.length
  size : os.length ≤ maxRecordInBlock
  count : b.m_recordCount = os.length
  sorted : os.Pairwise (· < ·)
  records : match b with
    | .appending b => ∀ i < os.length, ∃ d, b.getRecord (b.m_minRecordId + i) = .ok d ∧
        RecordHead.logOffset d = os.getD i 0
    | .solid b => b.m_recordInfos.map (·.logOffset) = os
  minLogOffset : b.m_minLogOffset = (os.find? (· ≠ 0)).getD 0
  maxLogOffset : b.m_maxLogOffset = os.getD (os.length - 1) 0

/-- The same for records some of which may have the same offset. -/
structure LogBlock.HasOffsets (b : LogBlock I) (os : List Nat) : Prop where
  nonempty : 0 < os.length
  size : os.length ≤ maxRecordInBlock
  count : b.m_recordCount = os.length
  sorted : os.Pairwise (· ≤ ·)
  records : match b with
    | .appending b => ∀ i < os.length, ∃ d, b.getRecord (b.m_minRecordId + i) = .ok d ∧
        RecordHead.logOffset d = os.getD i 0
    | .solid b => b.m_recordInfos.map (·.logOffset) = os
  minLogOffset : b.m_minLogOffset = (os.find? (· ≠ 0)).getD 0
  maxLogOffset : b.m_maxLogOffset = os.getD (os.length - 1) 0

theorem LogBlock.Holds.hasOffsets {b : LogBlock I} (h : b.Holds os) : b.HasOffsets os where
  nonempty := h.nonempty
  size := h.size
  count := h.count
  sorted := h.sorted.imp Nat.le_of_lt
  records := h.records
  minLogOffset := h.minLogOffset
  maxLogOffset := h.maxLogOffset

/-- The iterator of the block does not turn the target down. -/
def LogBlock.Covers (b : LogBlock I) (logOffset : Nat) : Prop :=
  b.m_minLogOffset ≤ logOffset ∧ logOffset ≤ b.m_maxLogOffset

/-- The iterator of the block finds what it looks for. -/
def LogBlock.Seekable (b : LogBlock I) (flag : Nat) : Prop :=
  match b with
  | .appending b => increase flag = true ∧ b.m_minRecordId = 0
  | .solid _ => True

theorem LogBlock.HasOffsets.first_le {b : LogBlock I} (h : b.HasOffsets os) :
    os.getD 0 0 ≤ b.m_minLogOffset := by
  rw [h.minLogOffset]
  have hpos := h.nonempty
  cases os with
  | nil => exact absurd hpos (Nat.lt_irrefl 0)
  | cons o os =>
    by_cases ho : o = 0
    · simp [ho]
    · simp [ho]

theorem LogBlock.HasOffsets.min_le_max {b : LogBlock I} (h : b.HasOffsets os) :
    b.m_minLogOffset ≤ b.m_maxLogOffset := by
  rw [h.minLogOffset, h.maxLogOffset]
  cases hfind : os.find? (· ≠ 0) with
  | none => exact Nat.zero_le _
  | some o =>
    obtain ⟨i, hi, rfl⟩ := List.mem_iff_getElem.mp (List.mem_of_find?_eq_some hfind)
    rw [Option.getD_some, ← List.getD_eq_getElem _ 0 hi]
    exact getD_le_getD h.sorted (by omega) (by omega)

theorem create_noFilter (b : SolidBlock) (flag : Nat) :
    ∃ it, SolidBlockIterator.create noPages b flag none () = .ok (it, ()) := by
  unfold SolidBlockIterator.create SolidBlockIterator.begin
  split <;> exact ⟨_, rfl⟩

private theorem seekTo_noFilter (b : SolidBlock) (flag m : Nat) (it : SolidBlockIterator) :
    SolidBlockIterator.seekTo noPages b flag none m it () = .ok (true, {
      m_recordId := m
      m_seekedId := m
      m_realRecordId := m + b.head.m_minRecordId
      m_status := .OK }, ()) := rfl

/-- A solid block answers with the place that the flag asks for. -/
theorem solid_seekCheckpoint {b : SolidBlock} (h : (LogBlock.solid b : LogBlock I).HasOffsets os)
    (hcovers : (LogBlock.solid b : LogBlock I).Covers logOffset) (flag : Nat) :
    ∃ p, SeekPlace flag os logOffset p ∧
      (LogBlock.solid b : LogBlock I).seekCheckpoint flag logOffset =
        .ok (some ⟨b.head.m_blockID, p, b.head.m_minRecordId + p⟩) := by
  have hcount : b.head.m_recordCount = os.length := h.count
  have hinfos : b.m_recordInfos.map (·.logOffset) = os := h.records
  have hat : ∀ i < os.length, (do
      let info ← tableAt b.m_recordInfos i
      return info.logOffset : Exec Nat) = .ok (os.getD i 0) := by
    intro i hi
    have hlen : i < b.m_recordInfos.length := by
      rw [← hinfos, List.length_map] at hi
      exact hi
    unfold tableAt
    rw [List.getElem?_eq_getElem hlen, List.getD_eq_getElem _ _ hi]
    simp only [← hinfos, List.getElem_map]
    rfl
  obtain ⟨found, lo, hi, m, hsearch, hm, hcase⟩ := searchOffset_between h.sorted hat h.nonempty
    (Nat.le_trans h.first_le hcovers.1) (by rw [← h.maxLogOffset]; exact hcovers.2)
  -- where the seek ends up
  have hseek : ∀ it, ∃ p : Nat, SeekPlace flag os logOffset p ∧
      SolidBlockIterator.seekCheckpoint noPages b flag none logOffset it () =
        SolidBlockIterator.seekTo noPages b flag none p { it with m_status := .UNINIT } () := by
    intro it
    unfold SolidBlockIterator.seekCheckpoint
    have hrange : ¬(b.head.m_maxLogOffset < logOffset ∨ logOffset < b.head.m_minLogOffset) := by
      have h₁ : b.head.m_minLogOffset ≤ logOffset := hcovers.1
      have h₂ : logOffset ≤ b.head.m_maxLogOffset := hcovers.2
      omega
    simp only [hrange, if_false, hcount, hsearch, Exec.ok_bind]
    obtain ⟨rfl, hhit⟩ | ⟨rfl, hhi, hlo, c, hc₀, hc, hbelow, habove, hprobe⟩ := hcase
    · exact ⟨m, .inl hhit, by simp⟩
    · have hnone := offsetsUpTo_le_of_gap h.sorted hc₀ hc hbelow habove
      have hgap := BoundAt.of_gap flag h.sorted hc₀ hc hbelow habove
      have hhi' : ¬hi < 0 := by omega
      have hlo' : ¬(os.length : Int) - 1 < lo := by omega
      simp only [Bool.false_eq_true, if_false, hhi', hlo', Int.toNat_natCast, hat m hm,
        Exec.ok_bind]
      refine ⟨_, .inr ⟨hnone, hgap⟩, ?_⟩
      obtain rfl | rfl := hprobe
      · -- the probe is behind the gap
        by_cases hflag : increase flag = true
        · simp only [hflag, if_true, Nat.lt_asymm habove, if_false]
        · have hne : ¬(m : Int) = 0 := by omega
          simp only [hflag, Bool.false_eq_true, if_false, habove, if_true, hne]
          rw [show ((m : Int) - 1).toNat = m - 1 by omega]
      · -- the probe is in front of it
        rw [Nat.add_sub_cancel] at hbelow ⊢
        by_cases hflag : increase flag = true
        · have hne : ¬(m : Int) = (os.length : Int) - 1 := by omega
          simp only [hflag, if_true, hbelow, hne, if_false]
          rfl
        · simp only [hflag, Bool.false_eq_true, if_false, Nat.lt_asymm hbelow]
  obtain ⟨it, hcreate⟩ := create_noFilter b flag
  obtain ⟨p, hbound, hseek⟩ := hseek it
  refine ⟨p, hbound, ?_⟩
  unfold LogBlock.seekCheckpoint
  simp only [hcreate, Exec.ok_bind, hseek, seekTo_noFilter]
  rw [Nat.add_comm]
  rfl

variable {b : AppendingBlock I}

theorem stepTo_before (hflag : increase flag = true) {m : Int}
    (hm₀ : 0 ≤ m) (hm : m < b.m_recordCount) (hsize : b.m_recordCount ≤ maxRecordInBlock) :
    b.stepTo flag ((m - 1) % 2 ^ 32).toNat =
      .ok (some ⟨b.m_blockID, m.toNat, b.m_minRecordId + m.toNat⟩) := by
  unfold maxRecordInBlock at hsize
  have hnext : (((m - 1) % 2 ^ 32).toNat + 1) % 2 ^ 32 = m.toNat := by omega
  unfold AppendingBlock.stepTo
  simp only [hflag, if_true, hnext]
  rw [if_neg (by omega)]

private theorem stepTo_behind (hflag : increase flag ≠ true) {m : Int}
    (hm₀ : 0 ≤ m) (hm : m < b.m_recordCount) (hsize : b.m_recordCount ≤ maxRecordInBlock) :
    b.stepTo flag ((m + 1) % 2 ^ 32).toNat = .error .nullDeref := by
  unfold maxRecordInBlock at hsize
  unfold AppendingBlock.stepTo
  rw [if_neg hflag, if_neg (by omega)]

theorem clamp_mem {n : Nat} {m lo hi m' : Int} (hpos : 0 < n) (hm₀ : 0 ≤ m) (hm : m ≤ (n : Int) - 1)
    (h : (if (n : Int) - 1 < lo then (n : Int) - 1 else if hi < 0 then 0 else m) = m') :
    0 ≤ m' ∧ m' ≤ (n : Int) - 1 := by
  subst h
  split
  · omega
  · split <;> omega

/-- Where an appending block goes, it has read an offset that is not below the target, under the
    number of the record in place of its id. -/
theorem appending_seekCheckpoint_some {pos : SeekPos}
    (hpos : 0 < b.m_recordCount) (hsize : b.m_recordCount ≤ maxRecordInBlock)
    (h : b.seekCheckpoint flag logOffset = .ok (some pos)) :
    (LogBlock.appending b).Covers logOffset ∧ increase flag = true ∧
      ∃ m < b.m_recordCount, pos = ⟨b.m_blockID, m, b.m_minRecordId + m⟩ ∧
        ∃ d, b.getRecord m = .ok d ∧ logOffset ≤ RecordHead.logOffset d := by
  unfold AppendingBlock.seekCheckpoint at h
  by_cases hrange : b.m_maxLogOffset < logOffset ∨ logOffset < b.m_minLogOffset
  · rw [if_pos hrange] at h
    cases h
  rw [if_neg hrange] at h
  have hcovers : (LogBlock.appending b).Covers logOffset := by
    show b.m_minLogOffset ≤ logOffset ∧ logOffset ≤ b.m_maxLogOffset
    omega
  obtain ⟨⟨found, m, lo, hi⟩, hsearch, h⟩ := Exec.of_bind h
  obtain ⟨hm₀, hm, hhit⟩ := binarySearch_probe (by omega) hsearch
  by_cases hflag : increase flag = true
  swap
  · -- the step back calls the filter
    exfalso
    simp only [hflag, Bool.false_eq_true, if_false] at h
    have hfind : ∀ m : Int, 0 ≤ m → m < b.m_recordCount →
        b.stepTo flag ((m + 1) % 2 ^ 32).toNat ≠ .ok (some pos) := by
      intro m hm₀ hm h
      rw [stepTo_behind hflag hm₀ hm hsize] at h
      cases h
    cases found with
    | true => exact hfind m hm₀ (by omega) h
    | false =>
      generalize hm' : (if ((b.m_recordCount : Int) - 1) < lo then (b.m_recordCount : Int) - 1
        else if hi < 0 then 0 else m) = m' at h
      have hm'₀ := clamp_mem hpos hm₀ hm hm'
      obtain ⟨o, -, h⟩ := Exec.of_bind h
      split at h
      · exact hfind m' hm'₀.1 (by omega) h
      split at h
      · cases h
      · obtain ⟨o, -, h⟩ := Exec.of_bind h
        split at h
        · exact hfind (m' - 1) (by omega) (by omega) h
        · cases h
  refine ⟨hcovers, hflag, ?_⟩
  simp only [hflag, if_true] at h
  -- `find` at a record that has been read
  have hfind : ∀ m : Int, 0 ≤ m → m < b.m_recordCount →
      (∃ d, b.getRecord m.toNat = .ok d ∧ logOffset ≤ RecordHead.logOffset d) →
      b.stepTo flag ((m - 1) % 2 ^ 32).toNat = .ok (some pos) →
      ∃ m < b.m_recordCount, pos = ⟨b.m_blockID, m, b.m_minRecordId + m⟩ ∧
        ∃ d, b.getRecord m = .ok d ∧ logOffset ≤ RecordHead.logOffset d := by
    intro m hm₀ hm hread h
    rw [stepTo_before hflag hm₀ hm hsize] at h
    cases h
    exact ⟨m.toNat, by omega, rfl, hread⟩
  cases found with
  | true =>
    obtain ⟨o, ho, hcmp⟩ := Exec.of_bind (hhit rfl)
    obtain ⟨d, hd, hret⟩ := Exec.of_bind ho
    cases hret
    have heq := Nat.compare_eq_eq.mp (Except.ok.inj hcmp)
    exact hfind m hm₀ (by omega) ⟨d, hd, Nat.le_of_eq heq⟩ h
  | false =>
    generalize hm' : (if ((b.m_recordCount : Int) - 1) < lo then (b.m_recordCount : Int) - 1
      else if hi < 0 then 0 else m) = m' at h
    have hm'₀ := clamp_mem hpos hm₀ hm hm'
    obtain ⟨o, ho, h⟩ := Exec.of_bind h
    obtain ⟨d, hd, hret⟩ := Exec.of_bind ho
    cases hret
    split at h
    · rename_i hle
      exact hfind m' hm'₀.1 (by omega) ⟨d, hd, hle⟩ h
    split at h
    · cases h
    · rename_i hne
      obtain ⟨o, ho, h⟩ := Exec.of_bind h
      obtain ⟨d, hd, hret⟩ := Exec.of_bind ho
      cases hret
      split at h
      · rename_i hle
        exact hfind (m' + 1) (by omega) (by omega) ⟨d, hd, hle⟩ h
      · cases h

/-- So does an appending block, if its ids begin at 0. -/
theorem appending_seekCheckpoint (h : (LogBlock.appending b).HasOffsets os)
    (hcovers : (LogBlock.appending b).Covers logOffset) (hflag : increase flag = true)
    (hmin : b.m_minRecordId = 0) :
    ∃ p, SeekPlace flag os logOffset p ∧
      b.seekCheckpoint flag logOffset = .ok (some ⟨b.m_blockID, p, b.m_minRecordId + p⟩) := by
  have hcount : b.m_recordCount = os.length := h.count
  have hrecords : ∀ i < os.length, ∃ d, b.getRecord (b.m_minRecordId + i) = .ok d ∧
      RecordHead.logOffset d = os.getD i 0 := h.records
  have hat : ∀ i < os.length, (do
      let d ← b.getRecord i
      return RecordHead.logOffset d : Exec Nat) = .ok (os.getD i 0) := by
    intro i hi
    obtain ⟨d, hd, ho⟩ := hrecords i hi
    rw [hmin, Nat.zero_add] at hd
    rw [hd, ← ho]
    rfl
  obtain ⟨found, lo, hi, m, hsearch, hm, hcase⟩ := searchOffset_between h.sorted hat h.nonempty
    (Nat.le_trans h.first_le hcovers.1) (by rw [← h.maxLogOffset]; exact hcovers.2)
  have hrange : ¬(b.m_maxLogOffset < logOffset ∨ logOffset < b.m_minLogOffset) := by
    have h₁ : b.m_minLogOffset ≤ logOffset := hcovers.1
    have h₂ : logOffset ≤ b.m_maxLogOffset := hcovers.2
    omega
  have hsize : b.m_recordCount ≤ maxRecordInBlock := by
    rw [hcount]
    exact h.size
  unfold AppendingBlock.seekCheckpoint
  simp only [hrange, hflag, if_true, if_false, hcount, hsearch, Exec.ok_bind]
  obtain ⟨rfl, hhit⟩ | ⟨rfl, hhi, hlo, c, hc₀, hc, hbelow, habove, hprobe⟩ := hcase
  · refine ⟨m, .inl hhit, ?_⟩
    rw [if_pos rfl, stepTo_before hflag (by omega) (by omega) hsize, Int.toNat_natCast]
  · have hnone := offsetsUpTo_le_of_gap h.sorted hc₀ hc hbelow habove
    have hgap := BoundAt.of_gap flag h.sorted hc₀ hc hbelow habove
    rw [if_pos hflag] at hgap
    have hhi' : ¬hi < 0 := by omega
    have hlo' : ¬(os.length : Int) - 1 < lo := by omega
    simp only [Bool.false_eq_true, if_false, hhi', hlo', Int.toNat_natCast, hat m hm,
      Exec.ok_bind]
    refine ⟨c, .inr ⟨hnone, hgap⟩, ?_⟩
    obtain rfl | rfl := hprobe
    · rw [if_pos (Nat.le_of_lt habove), stepTo_before hflag (by omega) (by omega) hsize,
        Int.toNat_natCast]
    · rw [Nat.add_sub_cancel] at hbelow
      rw [if_neg (by omega), if_neg (by omega), show ((m : Int) + 1).toNat = m + 1 by omega,
        hat (m + 1) hc, Exec.ok_bind, if_pos (Nat.le_of_lt habove),
        stepTo_before hflag (by omega) (by omega) hsize]
      rfl

theorem LogBlock.Holds.covers {b : LogBlock I} (h : b.Holds os) {pos : SeekPos}
    (hseek : b.seekCheckpoint flag logOffset = .ok (some pos)) : b.Covers logOffset := by
  cases b with
  | appending b =>
    have hcount : b.m_recordCount = os.length := h.count
    exact (appending_seekCheckpoint_some (by rw [hcount]; exact h.nonempty)
      (by rw [hcount]; exact h.size) hseek).1
  | solid b =>
    obtain ⟨⟨it, s⟩, -, hseek⟩ := Exec.of_bind hseek
    obtain ⟨⟨ok, it', s'⟩, hblock, hseek⟩ := Exec.of_bind hseek
    unfold SolidBlockIterator.seekCheckpoint at hblock
    by_cases hrange : b.head.m_maxLogOffset < logOffset ∨ logOffset < b.head.m_minLogOffset
    · simp only [hrange, if_true] at hblock
      cases hblock
      cases hseek
    · show b.head.m_minLogOffset ≤ logOffset ∧ logOffset ≤ b.head.m_maxLogOffset
      omega

theorem seekable_of_seekCheckpoint
    (h : (LogBlock.appending b).HasOffsets os) (hp : BoundAt flag os logOffset p)
    (hseek : b.seekCheckpoint flag logOffset =
      .ok (some ⟨b.m_blockID, p, b.m_minRecordId + p⟩)) :
    increase flag = true ∧ b.m_minRecordId = 0 := by
  have hcount : b.m_recordCount = os.length := h.count
  obtain ⟨-, hflag, m, hm, hpos, d, hd, hle⟩ := appending_seekCheckpoint_some
    (by rw [hcount]; exact h.nonempty) (by rw [hcount]; exact h.size) hseek
  refine ⟨hflag, ?_⟩
  by_contra hmin
  -- record `m - m_minRecordId` was read, which is before record `m`
  obtain rfl : p = m := congrArg SeekPos.m_recordId hpos
  have hge : b.m_minRecordId ≤ p := by
    by_contra hlt
    unfold AppendingBlock.getRecord at hd
    rw [if_pos (by omega)] at hd
    cases hd
  have hrecords : ∀ i < os.length, ∃ d, b.getRecord (b.m_minRecordId + i) = .ok d ∧
      RecordHead.logOffset d = os.getD i 0 := h.records
  obtain ⟨d', hd', ho⟩ := hrecords (p - b.m_minRecordId) (by omega)
  rw [show b.m_minRecordId + (p - b.m_minRecordId) = p by omega, hd] at hd'
  cases hd'
  obtain ⟨-, hp⟩ := hp
  rw [if_pos hflag] at hp
  have := hp.2 (p - b.m_minRecordId) (by omega)
  omega

theorem LogBlock.Holds.seek_iff {b : LogBlock I} (h : b.Holds os) (hcovers : b.Covers logOffset)
    (p : Nat) (hp : BoundAt flag os logOffset p) :
    b.seekCheckpoint flag logOffset = .ok (some ⟨b.m_blockID, p, b.m_minRecordId + p⟩) ↔
      b.Seekable flag := by
  cases b with
  | solid b =>
    obtain ⟨q, hq, hseek⟩ := solid_seekCheckpoint h.hasOffsets hcovers flag
    rw [hseek, (hq.boundAt h.sorted).unique hp]
    exact iff_of_true rfl trivial
  | appending b =>
    constructor
    · intro hseek
      exact seekable_of_seekCheckpoint h.hasOffsets hp hseek
    · rintro ⟨hflag, hmin⟩
      obtain ⟨q, hq, hseek⟩ := appending_seekCheckpoint h.hasOffsets hcovers hflag hmin
      rw [(hq.boundAt h.sorted).unique hp] at hseek
      exact hseek

end

/-! ## The search over the blocks -/

/-- `o` is the offset to find among the offsets `l`. -/
def IsBound (flag : Nat) (l : List Nat) (logOffset o : Nat) : Prop :=
  o ∈ l ∧
    if increase flag then logOffset ≤ o ∧ ∀ o' ∈ l, logOffset ≤ o' → o ≤ o'
    else o ≤ logOffset ∧ ∀ o' ∈ l, o' ≤ logOffset → o' ≤ o

/-- A chain of blocks with the offsets of their records, which go up through the whole chain. -/
structure LogChain (firstBlockId : Nat) (blocks : List (LogBlock I)) (offsets : List (List Nat)) :
    Prop where
  length : offsets.length = blocks.length
  ids : ∀ (k : Nat) (b : LogBlock I), blocks[k]? = some b → b.m_blockID = firstBlockId + k
  holds : ∀ (k : Nat) (b : LogBlock I) (os : List Nat), blocks[k]? = some b →
    offsets[k]? = some os → b.Holds os
  sorted : offsets.flatten.Pairwise (· < ·)

section

variable {I : IndexImpl} {blocks : List (LogBlock I)} {offsets : List (List Nat)}
  {firstBlockId flag logOffset : Nat} {os os' : List Nat} {b b' : LogBlock I}

theorem IsBound.exists {l : List Nat}
    (h : ∃ o ∈ l, if increase flag then logOffset ≤ o else o ≤ logOffset) :
    ∃ o, IsBound flag l logOffset o := by
  obtain ⟨o, ho, hle⟩ := h
  by_cases hflag : increase flag = true
  · simp only [IsBound, hflag, if_true] at hle ⊢
    have hex : ∃ o, o ∈ l ∧ logOffset ≤ o := ⟨o, ho, hle⟩
    obtain ⟨hmem, hge⟩ := Nat.find_spec hex
    exact ⟨Nat.find hex, hmem, hge, fun o' ho' hle' => Nat.find_min' hex ⟨ho', hle'⟩⟩
  · simp only [IsBound, hflag, Bool.false_eq_true, if_false] at hle ⊢
    exact ⟨Nat.findGreatest (· ∈ l) logOffset, Nat.findGreatest_spec (P := (· ∈ l)) hle ho,
      Nat.findGreatest_le _, fun o' ho' hle' => Nat.le_findGreatest hle' ho'⟩

theorem LogChain.lt_of_lt (hC : LogChain firstBlockId blocks offsets) {k k' : Nat} (hk : k < k')
    (hos : offsets[k]? = some os) (hos' : offsets[k']? = some os') :
    ∀ o ∈ os, ∀ o' ∈ os', o < o' := by
  obtain ⟨hlt, rfl⟩ := List.getElem?_eq_some_iff.mp hos
  obtain ⟨hlt', rfl⟩ := List.getElem?_eq_some_iff.mp hos'
  exact List.pairwise_iff_getElem.mp (List.pairwise_flatten.mp hC.sorted).2 k k' hlt hlt' hk

theorem LogChain.offsetsOf (hC : LogChain firstBlockId blocks offsets) {k : Nat}
    (hb : blocks[k]? = some b) : ∃ os, offsets[k]? = some os ∧ b.Holds os := by
  obtain ⟨hlt, -⟩ := List.getElem?_eq_some_iff.mp hb
  have hk : k < offsets.length := by
    rw [hC.length]
    exact hlt
  exact ⟨offsets[k], List.getElem?_eq_getElem hk,
    hC.holds k b _ hb (List.getElem?_eq_getElem hk)⟩

theorem getD_mem {i : Nat} (hi : i < os.length) : os.getD i 0 ∈ os := by
  rw [List.getD_eq_getElem _ _ hi]
  exact List.getElem_mem hi

theorem LogChain.max_lt_min (hC : LogChain firstBlockId blocks offsets) {k k' : Nat} (hk : k < k')
    (hb : blocks[k]? = some b) (hb' : blocks[k']? = some b') :
    b.m_maxLogOffset < b'.m_minLogOffset := by
  obtain ⟨os, hos, hholds⟩ := hC.offsetsOf hb
  obtain ⟨os', hos', hholds'⟩ := hC.offsetsOf hb'
  have hpos := hholds.nonempty
  calc b.m_maxLogOffset
    _ = os.getD (os.length - 1) 0 := hholds.maxLogOffset
    _ < os'.getD 0 0 := hC.lt_of_lt hk hos hos' _ (getD_mem (by omega)) _
        (getD_mem hholds'.nonempty)
    _ ≤ b'.m_minLogOffset := hholds'.hasOffsets.first_le

theorem tableAt_block {k : Nat} (hb : blocks[k]? = some b) :
    tableAt blocks (((firstBlockId + k : Nat) : Int) - firstBlockId).toNat = .ok b := by
  unfold tableAt
  rw [show (((firstBlockId + k : Nat) : Int) - firstBlockId).toNat = k by omega, hb]

/-- The search of the chain ends in the block that covers the offset. -/
theorem LogChain.seek_eq (hC : LogChain firstBlockId blocks offsets) {k : Nat}
    (hb : blocks[k]? = some b) (hcovers : b.Covers logOffset) (flag : Nat) :
    seekCheckpoint firstBlockId blocks flag logOffset = b.seekCheckpoint flag logOffset := by
  obtain ⟨hlt, -⟩ := List.getElem?_eq_some_iff.mp hb
  have hcompare : ∀ (i : Nat) (b' : LogBlock I), blocks[i]? = some b' →
      compareOffsets firstBlockId blocks logOffset (firstBlockId + i : Nat) =
        .ok (if b'.m_maxLogOffset < logOffset then .gt
          else if logOffset < b'.m_minLogOffset then .lt else .eq) := by
    intro i b' hb'
    unfold compareOffsets
    rw [tableAt_block hb']
    rfl
  obtain ⟨h₁, h₂⟩ := hcovers
  have hsearch : ∃ s e, binarySearch Fault.endless (compareOffsets firstBlockId blocks logOffset)
      (blocks.length + 1) firstBlockId (firstBlockId + blocks.length - 1) 0 =
      .ok (true, (firstBlockId + k : Nat), s, e) := by
    apply binarySearch_hit
    · omega
    · omega
    · -- the blocks before it
      intro i hlo hi
      obtain ⟨j, rfl⟩ : ∃ j : Nat, i = (firstBlockId + j : Nat) :=
        ⟨(i - firstBlockId).toNat, by omega⟩
      have hj : blocks[j]? = some blocks[j] := List.getElem?_eq_getElem (by omega)
      have := hC.max_lt_min (by omega) hj hb
      rw [hcompare j _ hj, if_pos (by omega)]
    · rw [hcompare k b hb, if_neg (by omega), if_neg (by omega)]
    · -- the blocks behind it
      intro i hlo hi
      obtain ⟨j, rfl⟩ : ∃ j : Nat, i = (firstBlockId + j : Nat) :=
        ⟨(i - firstBlockId).toNat, by omega⟩
      have hj : blocks[j]? = some blocks[j] := List.getElem?_eq_getElem (by omega)
      have hlt := hC.max_lt_min (show k < j by omega) hb hj
      obtain ⟨os', hos', hholds'⟩ := hC.offsetsOf hj
      have := hholds'.hasOffsets.min_le_max
      rw [hcompare j _ hj, if_neg (by omega), if_pos (by omega)]
    · omega
  obtain ⟨s, e, hsearch⟩ := hsearch
  unfold seekCheckpoint
  simp only [hsearch, Exec.ok_bind, if_true, tableAt_block hb]

theorem tableAt_mem {α : Type} {l : List α} {i : Nat} {a : α} (h : tableAt l i = .ok a) : a ∈ l := by
  unfold tableAt at h
  split at h
  · cases h
  · rename_i x hx
    cases h
    exact List.mem_of_getElem? hx

theorem neighbour_mem {m : Int} (h : neighbour firstBlockId blocks flag logOffset m = .ok (some b)) :
    b ∈ blocks := by
  obtain ⟨b₀, hb₀, h⟩ := Exec.of_bind h
  -- the probe itself
  have hself : (return some b₀ : Exec (Option (LogBlock I))) = .ok (some b) → b ∈ blocks := by
    intro h
    cases h
    exact tableAt_mem hb₀
  -- the block beside it, if it lies on the right side
  have hbeside : ∀ (i : Int) (c : LogBlock I → Bool), (do
      let b ← tableAt blocks (i - firstBlockId).toNat
      return if c b then some b else none : Exec (Option (LogBlock I))) = .ok (some b) →
      b ∈ blocks := by
    intro i c h
    obtain ⟨b₁, hb₁, h⟩ := Exec.of_bind h
    split at h
    · cases h
      exact tableAt_mem hb₁
    · cases h
  split at h
  · split at h
    · exact hself h
    · split at h
      · cases h
      · exact hbeside (m + 1) (fun b => logOffset ≤ b.m_minLogOffset) (by simpa using h)
  · split at h
    · split at h
      · exact hself h
      · split at h
        · cases h
        · exact hbeside (m - 1) (fun b => b.m_maxLogOffset ≤ logOffset) (by simpa using h)
    · exact hself h

private theorem seekCheckpoint_some {pos : SeekPos}
    (h : seekCheckpoint firstBlockId blocks flag logOffset = .ok (some pos)) :
    ∃ b ∈ blocks, b.seekCheckpoint flag logOffset = .ok (some pos) := by
  obtain ⟨⟨found, m, s, e⟩, -, h⟩ := Exec.of_bind h
  cases found with
  | true =>
    obtain ⟨b, hb, h⟩ := Exec.of_bind h
    exact ⟨b, tableAt_mem hb, h⟩
  | false =>
    obtain ⟨b, hb, h⟩ := Exec.of_bind h
    cases b with
    | none => cases h
    | some b => exact ⟨b, neighbour_mem hb, h⟩

theorem IsBound.boundAt {l : List Nat} {i : Nat} (h : IsBound flag l logOffset (os.getD i 0))
    (hsub : ∀ o ∈ os, o ∈ l) (hos : os.Pairwise (· < ·)) (hi : i < os.length) :
    BoundAt flag os logOffset i := by
  obtain ⟨-, h⟩ := h
  refine ⟨hi, ?_⟩
  by_cases hflag : increase flag = true
  · simp only [hflag, if_true] at h ⊢
    refine ⟨h.1, ?_⟩
    intro j hj
    by_contra hge
    have := h.2 _ (hsub _ (getD_mem (show j < os.length by omega))) (by omega)
    have := getD_lt_getD hos hj hi
    omega
  · simp only [hflag, Bool.false_eq_true, if_false] at h ⊢
    refine ⟨h.1, ?_⟩
    intro j hj hlt
    by_contra hle
    have := h.2 _ (hsub _ (getD_mem hlt)) (by omega)
    have := getD_lt_getD hos hj hlt
    omega

theorem LogChain.bound_block (hC : LogChain firstBlockId blocks offsets) {k k' i : Nat}
    (hos : offsets[k]? = some os) (hi : i < os.length)
    (hbound : IsBound flag offsets.flatten logOffset (os.getD i 0))
    (hb' : blocks[k']? = some b') (hcovers : b'.Covers logOffset) : k = k' := by
  obtain ⟨os', hos', hholds'⟩ := hC.offsetsOf hb'
  have hpos' := hholds'.nonempty
  have hflat : ∀ o ∈ os', o ∈ offsets.flatten := fun o ho =>
    List.mem_flatten.mpr ⟨os', List.mem_of_getElem? hos', ho⟩
  have hfirst : os'.getD 0 0 ≤ logOffset := Nat.le_trans hholds'.hasOffsets.first_le hcovers.1
  have hlast : logOffset ≤ os'.getD (os'.length - 1) 0 := by
    rw [← hholds'.maxLogOffset]
    exact hcovers.2
  -- so it lies between the first and the last offset of that block
  have hbetween : os'.getD 0 0 ≤ os.getD i 0 ∧ os.getD i 0 ≤ os'.getD (os'.length - 1) 0 := by
    obtain ⟨-, hbound⟩ := hbound
    by_cases hflag : increase flag = true
    · simp only [hflag, if_true] at hbound
      have := hbound.2 _ (hflat _ (getD_mem (show os'.length - 1 < os'.length by omega))) hlast
      omega
    · simp only [hflag, Bool.false_eq_true, if_false] at hbound
      have := hbound.2 _ (hflat _ (getD_mem hpos')) hfirst
      omega
  by_contra hne
  obtain hlt | hlt := Nat.lt_or_gt_of_ne hne
  · have := hC.lt_of_lt hlt hos hos' _ (getD_mem hi) _ (getD_mem hpos')
    omega
  · have := hC.lt_of_lt hlt hos' hos _ (getD_mem (show os'.length - 1 < os'.length by omega)) _
      (getD_mem hi)
    omega

/-- `databaseCheckpointIterator::seek` positions on the record to find, if there is one, exactly
    when a block that can be searched covers the target. -/
theorem seekCheckpoint_iff (hC : LogChain firstBlockId blocks offsets) (flag logOffset : Nat) :
    (∀ (k i : Nat) (b : LogBlock I) (os : List Nat) (o : Nat), blocks[k]? = some b →
      offsets[k]? = some os → os[i]? = some o → IsBound flag offsets.flatten logOffset o →
      seekCheckpoint firstBlockId blocks flag logOffset =
        .ok (some ⟨b.m_blockID, i, b.m_minRecordId + i⟩)) ↔
      ((∃ o ∈ offsets.flatten, if increase flag then logOffset ≤ o else o ≤ logOffset) →
        ∃ b ∈ blocks, b.Covers logOffset ∧ b.Seekable flag) := by
  constructor
  · intro hfinds hex
    obtain ⟨o, hbound⟩ := IsBound.exists hex
    -- the place of the offset
    obtain ⟨os, hmem, ho⟩ := List.mem_flatten.mp hbound.1
    obtain ⟨k, hk, rfl⟩ := List.mem_iff_getElem.mp hmem
    obtain ⟨i, hi, rfl⟩ := List.mem_iff_getElem.mp ho
    have hos := List.getElem?_eq_getElem hk
    have hb := List.getElem?_eq_getElem (show k < blocks.length by rw [← hC.length]; exact hk)
    have hseek := hfinds k i _ _ _ hb hos (List.getElem?_eq_getElem hi) hbound
    obtain ⟨b', hmem', hseek'⟩ := seekCheckpoint_some hseek
    obtain ⟨k', hk', rfl⟩ := List.mem_iff_getElem.mp hmem'
    have hb' := List.getElem?_eq_getElem hk'
    obtain ⟨os', hos', hholds'⟩ := hC.offsetsOf hb'
    have hcovers := hholds'.covers hseek'
    rw [← List.getD_eq_getElem _ 0 hi] at hbound
    obtain rfl := hC.bound_block hos hi hbound hb' hcovers
    rw [hos] at hos'
    cases hos'
    have hat := hbound.boundAt (fun o ho => List.mem_flatten.mpr ⟨_, hmem, ho⟩) hholds'.sorted hi
    exact ⟨_, hmem', hcovers, (hholds'.seek_iff hcovers i hat).mp hseek'⟩
  · intro hcover k i b os o hb hos ho hbound
    obtain ⟨hi, rfl⟩ := List.getElem?_eq_some_iff.mp ho
    obtain ⟨b', hmem', hcovers, hseekable⟩ := hcover ⟨_, hbound.1, by
      obtain ⟨-, h⟩ := hbound
      by_cases hflag : increase flag = true
      · simp only [hflag, if_true] at h ⊢
        exact h.1
      · simp only [hflag, Bool.false_eq_true, if_false] at h ⊢
        exact h.1⟩
    obtain ⟨k', hk', rfl⟩ := List.mem_iff_getElem.mp hmem'
    have hb' := List.getElem?_eq_getElem hk'
    rw [← List.getD_eq_getElem _ 0 hi] at hbound
    obtain rfl := hC.bound_block hos hi hbound hb' hcovers
    rw [hb] at hb'
    cases hb'
    have hholds := hC.holds k _ os hb hos
    have hat := hbound.boundAt
      (fun o ho => List.mem_flatten.mpr ⟨os, List.mem_of_getElem? hos, ho⟩) hholds.sorted hi
    rw [hC.seek_eq hb hcovers]
    exact (hholds.seek_iff hcovers i hat).mpr hseekable

end

/-! ## Two blocks with a gap -/

/-- A block with records at the offsets `os`. -/
def loggedBlock (blockId minRecordId : Nat) (os : List Nat) : SolidBlock :=
  let b := tableBlock blockId minRecordId (os.map fun _ => 0)
  { b with
    head := { b.head with
      m_minLogOffset := (os.find? (· ≠ 0)).getD 0
      m_maxLogOffset := os.getD (os.length - 1) 0 }
    m_recordInfos := os.map fun o => { logOffset := o } }

theorem holds_loggedBlock {I : IndexImpl} (blockId minRecordId : Nat) {os : List Nat}
    (hpos : 0 < os.length) (hsize : os.length ≤ maxRecordInBlock) (hos : os.Pairwise (· < ·)) :
    (LogBlock.solid (loggedBlock blockId minRecordId os) : LogBlock I).Holds os where
  nonempty := hpos
  size := hsize
  count := List.length_map _
  sorted := hos
  records := by
    show (os.map fun o => ({ logOffset := o } : RecordGeneralInfo)).map (·.logOffset) = os
    rw [List.map_map]
    exact List.map_id _
  minLogOffset := rfl
  maxLogOffset := rfl

def gapBlocks : List (LogBlock noIndex) :=
  [.solid (loggedBlock 1 1 [10, 20]), .solid (loggedBlock 2 3 [30, 40])]

theorem logChain_gapBlocks : LogChain 1 gapBlocks [[10, 20], [30, 40]] where
  length := rfl
  ids := by
    intro k b hb
    match k with
    | 0 | 1 =>
      cases hb
      rfl
    | k + 2 => cases hb
  holds := by
    intro k b os hb hos
    match k with
    | 0 | 1 =>
      cases hb
      cases hos
      exact holds_loggedBlock _ _ (by decide) (by decide) (by decide)
    | k + 2 => cases hb
  sorted := by decide

/-- A target inside the second block. -/
theorem seekCheckpoint_inside : IsBound 0 [[10, 20], [30, 40]].flatten 35 40 ∧
    seekCheckpoint 1 gapBlocks 0 35 = .ok (some ⟨2, 1, 4⟩) := by
  have hbound : IsBound 0 [[10, 20], [30, 40]].flatten 35 40 := by
    refine ⟨by decide, ?_⟩
    rw [if_pos (by decide)]
    decide
  have hfinds := (seekCheckpoint_iff logChain_gapBlocks 0 35).mpr fun _ =>
    ⟨_, List.mem_cons_of_mem _ List.mem_cons_self, ⟨by decide, by decide⟩, trivial⟩
  exact ⟨hbound, hfinds 1 1 _ _ 40 rfl rfl rfl hbound⟩

/-- A target between the blocks: neither direction finds its record. -/
theorem seekCheckpoint_in_gap :
    IsBound 0 [[10, 20], [30, 40]].flatten 25 30 ∧ seekCheckpoint 1 gapBlocks 0 25 = .ok none ∧
    IsBound 5 [[10, 20], [30, 40]].flatten 25 20 ∧ seekCheckpoint 1 gapBlocks 5 25 = .ok none := by
  have hup : IsBound 0 [[10, 20], [30, 40]].flatten 25 30 := by
    refine ⟨by decide, ?_⟩
    decide
  have hdown : IsBound 5 [[10, 20], [30, 40]].flatten 25 20 := by
    refine ⟨by decide, ?_⟩
    decide
  exact ⟨hup, by rfl, hdown, by rfl⟩

end DBStream.Native
