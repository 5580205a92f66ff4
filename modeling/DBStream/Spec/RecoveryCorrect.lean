import DBStream.Spec.PageBytes
import DBStream.Spec.RedoFile

/-!
# Recovery restores a prefix

A block that is recovered repeats the appends of the original one: it is the same block up
to its flags and its redo state (`mask`), as long as both start with the same record id and
`append` can load what the file holds (`append_mask`).  `replay_survivors` follows the loop
over a buffer that was cut at any byte.

What the loop makes of the head and of the end of the file is not what was written there:
the head is the first log offset, not the first record id, and the end marker is never
recognised (`replay_not_finished`).  `recovery_restores_iff` says exactly when this does not
matter.
-/

namespace DBStream.Native

variable {I : IndexImpl} {Γ : MetaDataCollection I}

/-! ## Records read back -/

namespace Record

variable (r : Record) (id : Nat)

private theorem slice_stamped_right (off len : Nat) :
    (r.stamped id).slice (18 + off) len = r.data.slice (18 + off) len :=
  RecordHead.slice_setRecordId_right off len id r.head_le

theorem type_stamped : RecordHead.type (r.stamped id) = RecordHead.type r.data :=
  RecordHead.type_setRecordId r.head_le id

theorem logOffset_stamped : RecordHead.logOffset (r.stamped id) = RecordHead.logOffset r.data :=
  RecordHead.logOffset_setRecordId r.head_le id

theorem timestamp_stamped : RecordHead.timestamp (r.stamped id) = RecordHead.timestamp r.data :=
  RecordHead.timestamp_setRecordId r.head_le id

private theorem txnId_stamped : RecordHead.txnId (r.stamped id) = RecordHead.txnId r.data := by
  have hslice := r.slice_stamped_right id 16 4
  rw [RecordHead.txnId, RecordHead.txnId, hslice]

theorem stamped_restamp : (r.restamp id).stamped id = r.stamped id := by
  have hlen := r.head_le
  simp only [recordHeadSize] at hlen
  show RecordHead.setRecordId (RecordHead.setRecordId r.data id) id = _
  have htake : (RecordHead.setRecordId r.data id).take 10 = r.data.take 10 := by
    rw [RecordHead.setRecordId, List.take_append_of_le_length (by simp; omega),
      List.take_take]
    simp
  have hdrop : (RecordHead.setRecordId r.data id).drop 18 = r.data.drop 18 := by
    rw [RecordHead.setRecordId, ← List.append_assoc, List.drop_append_of_le_length (by simp; omega)]
    rw [List.drop_of_length_le (by simp), List.nil_append]
  rw [RecordHead.setRecordId, htake, hdrop]
  rfl

private theorem parse_stamped : Record.parse (r.stamped id) = some (r.restamp id) := by
  unfold Record.parse
  rw [dif_pos ⟨(r.restamp id).head_le, (r.restamp id).headSize_eq, (r.restamp id).size_eq⟩]
  rfl

def Replayable : Prop :=
  RecordHead.isDML r.data = true ∨ RecordHead.type r.data = RecordType.R_DDL.code

instance : Decidable r.Replayable := inferInstanceAs (Decidable (_ ∨ _))

theorem isDML_stamped : RecordHead.isDML (r.stamped id) = RecordHead.isDML r.data := by
  rw [RecordHead.isDML, r.type_stamped, RecordHead.isDML]

end Record

theorem MetaDataCollection.metaOf_stamped (Γ : MetaDataCollection I) (r : Record) (id : Nat) :
    Γ.metaOf (r.stamped id) = Γ.metaOf r.data := by
  rw [metaOf, metaOf, r.isDML_stamped, r.tableId_stamped]

namespace AppendingBlock

variable {b b' : AppendingBlock I}

/-! ## The same block with other flags and redo state -/

/-- The block with other flags and another redo state. -/
def mask (b : AppendingBlock I) (flag : BlockFlag) (redo : RedoState) : AppendingBlock I :=
  { b with m_flag := flag, redo := redo }

theorem getTableData_mask {m : Option (TableMeta I)} {b₁ : AppendingBlock I} (flag : BlockFlag)
    (redo : RedoState) (h : b.getTableData m = .ok b₁) :
    (b.mask flag redo).getTableData m = .ok (b₁.mask flag redo) := by
  rcases getTableData_cases h with ⟨rfl, hknown⟩ | ⟨m', t, rfl, hfind, ht, rfl⟩
  · cases m with
    | none => rfl
    | some m =>
      obtain ⟨t, ht⟩ := hknown m rfl
      simp only [getTableData, mask, ht]
  · simp only [getTableData, mask, hfind, ht]
    rfl

theorem Opened.mask {key size : Nat} (flag : BlockFlag) (redo : RedoState)
    (h : Opened b key size b') : Opened (b.mask flag redo) key size (b'.mask flag redo) := by
  cases h with
  | found => exact .found
  | made t ht hfull hopen => exact .made t ht hfull ⟨hopen.count, hopen.pages, hopen.bytes⟩

theorem Ready.mask {key size slot : Nat} {t : TableData I} {p : Page} (flag : BlockFlag)
    (redo : RedoState) (h : Ready b key size slot t p) : Ready (b.mask flag redo) key size slot t p :=
  ⟨h.table, h.current, h.page, h.room, h.count⟩

variable {r : Record}

/-- An append goes the same way in a block without a redo file and with other flags. -/
theorem append_mask {io io' : RedoIo} {flag : BlockFlag} {redo : RedoState}
    (hkind : r.Replayable) (hflag : flag.hasRedo = false)
    (h : b.append Γ r io = .ok (.B_OK, b')) :
    (b.mask flag redo).append Γ (r.restamp (b.m_minRecordId + b.m_recordCount)) io' =
      .ok (.B_OK, b'.mask flag redo) := by
  rcases append_cases h with ⟨hs, -⟩ | ⟨hlog, b₁, hb₁, hcase⟩
  · cases hs
  rcases hcase with ⟨hs, -⟩ | ⟨b₂, t, slot, p, redo', hopened, hready, hredo, hend⟩
  · cases hs
  rcases hend with ⟨hs, -⟩ | ⟨-, tables, hidx, rfl⟩
  · exact absurd rfl hs
  -- the ids of the two blocks agree up to the place of the record
  have hids : b₂.m_minRecordId + b₂.m_recordCount = b.m_minRecordId + b.m_recordCount := by
    have h₁ : b₁.m_minRecordId + b₁.m_recordCount = b.m_minRecordId + b.m_recordCount := by
      rcases getTableData_cases hb₁ with ⟨rfl, -⟩ | ⟨m, t', -, -, -, rfl⟩
      · rfl
      · rfl
    cases hopened with
    | found => exact h₁
    | made _ _ _ _ => exact h₁
  rw [← hids]
  generalize hid : b₂.m_minRecordId + b₂.m_recordCount = id
  have hdata : (r.restamp id).data = r.stamped id := rfl
  have hmeta : Γ.metaOf (r.restamp id).data = Γ.metaOf r.data := Γ.metaOf_stamped r id
  have hlen : (r.restamp id).data.length = r.data.length := r.length_stamped id
  have hload : loadCopy (Γ.metaOf (r.restamp id).data) (r.restamp id) = .ok () := by
    unfold loadCopy
    rw [hdata, r.isDML_stamped, r.type_stamped, Γ.metaOf_stamped]
    by_cases hdml : RecordHead.isDML r.data = true
    · rw [if_pos hdml]
      cases hidx with
      | row m t' hm _ =>
        rw [hm]
        rfl
      | other hno _ =>
        rw [hno] at hdml
        cases hdml
    · rw [if_neg hdml, if_pos (hkind.resolve_left hdml)]
      rfl
  have hidx' : Indexed Γ (b₂.mask flag redo) (r.restamp id) t tables := by
    cases hidx with
    | row m t' hm hadd =>
      refine .row m t' (by rw [hmeta]; exact hm) ?_
      show t.addRecord ((r.restamp id).stamped (b₂.m_minRecordId + b₂.m_recordCount)) _ = _
      rw [hid, r.stamped_restamp id, ← hid]
      exact hadd
    | other hdml hm =>
      exact .other (by rw [hdata, r.isDML_stamped]; exact hdml) (by rw [hmeta]; exact hm)
  have hresult : (b.mask flag redo).append Γ (r.restamp id) io' = _ := append_copied rfl hload
    (by rw [hdata, r.logOffset_stamped]; exact hlog)
    (by rw [hmeta]; exact getTableData_mask flag redo hb₁)
    (by
      rw [hmeta, hlen]
      exact allocMemForRecord_opened (hopened.mask flag redo) (hready.mask flag redo))
    (by rw [hmeta, hlen]; exact hready.mask flag redo) hidx' hflag
  rw [hresult]
  simp only [store, place, setRedo, mask, acceptRecord, hdata, hid, r.stamped_restamp,
    r.logOffset_stamped, r.timestamp_stamped, r.txnId_stamped, r.type_stamped]

theorem append_replayable {io : RedoIo} (haddr : r.addr = none)
    (h : b.append Γ r io = .ok (.B_OK, b')) : r.Replayable := by
  simp only [append] at h
  split at h
  · cases h
  obtain ⟨⟨s, b₁⟩, hcopy, h⟩ := Exec.of_bind h
  by_cases hs : s = .B_OK
  swap
  · simp only [hs, if_false] at h
    cases h
    exact absurd rfl hs
  obtain ⟨b₂, -, hcopy⟩ := Exec.of_bind hcopy
  rw [if_neg (by simp [haddr])] at hcopy
  obtain ⟨⟨s₂, b₃⟩, -, hcopy⟩ := Exec.of_bind hcopy
  by_cases hs₂ : s₂ = .B_OK
  swap
  · simp only [hs₂, if_false] at hcopy
    cases hcopy
    exact absurd hs hs₂
  simp only [hs₂, if_true] at hcopy
  obtain ⟨u, hload, hcopy⟩ := Exec.of_bind hcopy
  unfold loadCopy at hload
  by_cases hdml : RecordHead.isDML r.data = true
  · exact Or.inl hdml
  · rw [if_neg hdml] at hload
    by_cases hddl : RecordHead.type r.data = RecordType.R_DDL.code
    · exact Or.inr hddl
    · rw [if_neg hddl] at hload
      cases hload

theorem recordCount_of_append_fails {io : RedoIo} {s : AppendingBlockStaus}
    (h : b.append Γ r io = .ok (s, b')) (hs : s ≠ .B_OK) : b'.m_recordCount = b.m_recordCount := by
  rcases append_cases h with ⟨-, rfl, -⟩ | ⟨-, b₁, hb₁, hcase⟩
  · rfl
  have hcount₁ := (Extends.getTableData hb₁).2
  rcases hcase with ⟨-, rfl, -⟩ | ⟨b₂, t, slot, p, redo, hopened, -, -, hend⟩
  · exact hcount₁
  · have hcount₂ : b₂.m_recordCount = b.m_recordCount := by
      cases hopened with
      | found => exact hcount₁
      | made _ _ _ _ => exact hcount₁
    rcases hend with ⟨-, rfl⟩ | ⟨hok, -⟩
    · exact hcount₂
    · exact absurd hok hs

/-! ## The loop over the buffer -/

/-- How many of the records lie completely in the first `n` bytes. -/
def survivors : Nat → List Record → Nat
  | _, [] => 0
  | n, r :: rs => if r.data.length ≤ n then survivors (n - r.data.length) rs + 1 else 0

theorem survivors_cons (n : Nat) (r : Record) (rs : List Record) : survivors n (r :: rs) =
    if r.data.length ≤ n then survivors (n - r.data.length) rs + 1 else 0 := rfl

theorem size_lt (d : List UInt8) : RecordHead.size d < 2 ^ 32 := by
  have hlen : (d.slice 0 4).length ≤ 4 := by simp [List.slice]
  have hlt := LE.nat_lt (d.slice 0 4)
  have hpow : 256 ^ (d.slice 0 4).length ≤ 256 ^ 4 := Nat.pow_le_pow_right (by omega) hlen
  unfold RecordHead.size
  omega

theorem size_take (d : List UInt8) {n : Nat} (hn : 4 ≤ n) :
    RecordHead.size (d.take n) = RecordHead.size d := by
  simp [RecordHead.size, List.slice, List.take_take, Nat.min_eq_left hn]

variable {io : RecoveryIo} {buf : List UInt8} {fuel : Nat} {c : AppendingBlock I}

theorem size_ne_marker (d : List UInt8) : RecordHead.size d ≠ ENDOF_REDO_NUM := by
  have hlt := size_lt d
  unfold ENDOF_REDO_NUM
  omega

theorem replay_cut {pre rest : List UInt8} (hbuf : buf = pre ++ rest)
    (hcut : rest.length < recordHeadSize ∨ rest.length < RecordHead.size rest)
    (hio : io.truncated = true) :
    c.replay Γ io buf (fuel + 1) pre.length =
      .ok (some (1, (c.setRedo (c.redo.truncateFile pre.length)).setHasRedo true)) := by
  have hdrop : buf.drop pre.length = rest := by simp [hbuf]
  have hlen : buf.length = pre.length + rest.length := by simp [hbuf]
  unfold replay
  rw [hdrop, if_pos (by omega), if_neg (fun h => size_ne_marker rest h.2), if_pos (by omega),
    if_pos hio]

theorem replay_record {pre post : List UInt8} {id : Nat}
    (hbuf : buf = pre ++ (r.stamped id ++ post)) :
    c.replay Γ io buf (fuel + 1) pre.length = (do
      let (s, c) ← c.append Γ (r.restamp id) io.append
      if s = .B_OK then c.replay Γ io buf fuel (pre ++ r.stamped id).length
      else return some (-1, c.setHasRedo true)) := by
  have hhead := r.head_le
  have hlen := r.length_stamped id
  have hdrop : buf.drop pre.length = r.stamped id ++ post := by simp [hbuf]
  have hsize : RecordHead.size (r.stamped id ++ post) = r.data.length := by
    rw [← r.size_stamped id, RecordHead.size, RecordHead.size, List.slice_append_left]
    simp only [recordHeadSize] at hhead
    omega
  have hbuflen : buf.length = pre.length + (r.data.length + post.length) := by
    simp [hbuf, hlen]
  have hslice : buf.slice pre.length r.data.length = r.stamped id := by
    rw [hbuf, List.slice_append_mid _ rfl hlen]
  conv_lhs => unfold replay
  rw [hdrop, hsize, if_pos (by omega), if_neg, if_neg (by omega), hslice, r.parse_stamped,
    List.length_append, hlen]
  · intro hmarker
    simp only [ENDOF_REDO_NUM] at hmarker
    omega

theorem replay_not_finished {head : Nat} {res : Int × AppendingBlock I}
    (h : c.replay Γ io buf fuel head = .ok (some res)) :
    (res.2.m_blockID = c.m_blockID ∧ res.2.m_minRecordId = c.m_minRecordId) ∧ res.1 ≠ 0 := by
  induction fuel generalizing c head with
  | zero => cases h
  | succ fuel ih =>
    unfold replay at h
    split at h
    · rw [if_neg (fun hmarker => size_ne_marker _ hmarker.2)] at h
      split at h
      · split at h
        · cases h
          exact ⟨⟨rfl, rfl⟩, by simp⟩
        · cases h
          exact ⟨⟨rfl, rfl⟩, by simp⟩
      · split at h
        · cases h
        · obtain ⟨⟨s, c'⟩, happend, h⟩ := Exec.of_bind h
          have hids := step_ids (show c.step Γ (.append _ _) = _ from happend)
          by_cases hs : s = .B_OK
          · simp only [hs, if_true] at h
            obtain ⟨⟨hid, hmin⟩, hret⟩ := ih h
            exact ⟨⟨hid.trans hids.1, hmin.trans hids.2⟩, hret⟩
          · simp only [hs, if_false] at h
            cases h
            exact ⟨hids, by simp⟩
    · cases h
      exact ⟨⟨rfl, rfl⟩, by simp⟩

theorem take_stamped {id n : Nat} {post : List UInt8} (hn : r.data.length ≤ n) :
    (r.stamped id ++ post).take n = r.stamped id ++ post.take (n - r.data.length) := by
  rw [List.take_append, List.take_of_length_le (by rw [r.length_stamped]; exact hn),
    r.length_stamped]

theorem cut_stamped {id n : Nat} {post : List UInt8} (hn : n < r.data.length) :
    ((r.stamped id ++ post).take n).length < recordHeadSize ∨
      ((r.stamped id ++ post).take n).length < RecordHead.size ((r.stamped id ++ post).take n) := by
  have hlen : ((r.stamped id ++ post).take n).length = n := by
    rw [List.length_take, List.length_append, r.length_stamped]
    omega
  by_cases hhead : n < recordHeadSize
  · exact Or.inl (by omega)
  · right
    simp only [recordHeadSize] at hhead
    rw [hlen, size_take _ (by omega), ← List.take_append_drop 4 (r.stamped id), List.append_assoc,
      ← size_take _ (Nat.le_refl 4), List.take_append_of_le_length (by simp; omega),
      List.take_take, size_take _ (by simp), r.size_stamped]
    exact hn

variable {rs : List (Record × RedoIo)}

/-- The loop over a buffer that was cut at any byte: it stores the complete records and reports an
    unfinished file. -/
theorem replay_survivors {n : Nat} {pre tail : List UInt8}
    {flag : BlockFlag} {b' : AppendingBlock I} (redo : RedoState) (hflag : flag.hasRedo = false)
    (hio : io.truncated = true) (htail : tail.length < recordHeadSize)
    (hbuf : buf = pre ++
      (stampAll (b.m_minRecordId + b.m_recordCount) (rs.map Prod.fst) ++ tail).take n)
    (hall : appendAll Γ rs b = .ok (some b'))
    (hkind : ∀ r ∈ (rs.map Prod.fst).take (survivors n (rs.map Prod.fst)), r.Replayable)
    (hfuel : rs.length < fuel) :
    ∃ bₖ redo', appendAll Γ (rs.take (survivors n (rs.map Prod.fst))) b = .ok (some bₖ) ∧
      (b.mask flag redo).replay Γ io buf fuel pre.length =
        .ok (some (1, bₖ.mask { flag with hasRedo := true } redo')) := by
  induction rs generalizing b pre n fuel with
  | nil =>
    obtain ⟨fuel, rfl⟩ : ∃ f, fuel = f + 1 := ⟨fuel - 1, by simp at hfuel; omega⟩
    refine ⟨b, redo.truncateFile pre.length, rfl, ?_⟩
    rw [replay_cut hbuf _ hio]
    · rfl
    · left
      simp only [List.map_nil, stampAll, List.nil_append, List.length_take]
      omega
  | cons x rs ih =>
    obtain ⟨r, io'⟩ := x
    obtain ⟨fuel, rfl⟩ : ∃ f, fuel = f + 1 := ⟨fuel - 1, by simp at hfuel; omega⟩
    rw [List.map_cons, stampAll, List.append_assoc] at hbuf
    by_cases hn : r.data.length ≤ n
    · -- the record is complete
      obtain ⟨b₁, happend, hall⟩ := appendAll_cons hall
      obtain ⟨-, -, hmin, hcount⟩ := append_ok happend
      have hsurvive : survivors n (((r, io') :: rs).map Prod.fst) =
          survivors (n - r.data.length) (rs.map Prod.fst) + 1 := by
        rw [List.map_cons, survivors_cons, if_pos hn]
      rw [hsurvive, List.map_cons, List.take_succ_cons] at hkind
      have hr : r.Replayable := hkind r (List.mem_cons_self ..)
      rw [take_stamped hn] at hbuf
      have hnext : (b.mask flag redo).append Γ
          (r.restamp (b.m_minRecordId + b.m_recordCount)) io.append = _ :=
        append_mask hr hflag happend
      have hid : b₁.m_minRecordId + b₁.m_recordCount = b.m_minRecordId + b.m_recordCount + 1 := by
        omega
      rw [hsurvive, List.take_succ_cons, replay_record hbuf, hnext]
      rw [← List.append_assoc, ← hid] at hbuf
      obtain ⟨bₖ, redo', hk, hreplay⟩ := ih hbuf hall
        (fun r' hr' => hkind r' (List.mem_cons_of_mem r hr')) (by simpa using hfuel)
      refine ⟨bₖ, redo', ?_, hreplay⟩
      rw [appendAll, happend]
      exact hk
    · -- the record is cut off
      have hsurvive : survivors n (((r, io') :: rs).map Prod.fst) = 0 := by
        rw [List.map_cons, survivors_cons, if_neg hn]
      rw [hsurvive]
      refine ⟨b, redo.truncateFile pre.length, rfl, ?_⟩
      rw [replay_cut hbuf (cut_stamped (Nat.lt_of_not_le hn)) hio]
      rfl

/-- A replay that counts all survivors has had no record of another kind. -/
theorem replayable_of_count {n : Nat} {pre tail : List UInt8}
    {flag : BlockFlag} {redo : RedoState} {b' : AppendingBlock I} {res : Int × AppendingBlock I}
    (hflag : flag.hasRedo = false)
    (hbuf : buf = pre ++
      (stampAll (b.m_minRecordId + b.m_recordCount) (rs.map Prod.fst) ++ tail).take n)
    (hall : appendAll Γ rs b = .ok (some b'))
    (h : (b.mask flag redo).replay Γ io buf fuel pre.length = .ok (some res))
    (hres : res.2.m_recordCount = b.m_recordCount + survivors n (rs.map Prod.fst)) :
    ∀ r ∈ (rs.map Prod.fst).take (survivors n (rs.map Prod.fst)), r.Replayable := by
  induction rs generalizing b pre n fuel with
  | nil =>
    intro r hr
    simp at hr
  | cons x rs ih =>
    obtain ⟨r, io'⟩ := x
    by_cases hn : r.data.length ≤ n
    swap
    · -- the record is cut off, so there is none to look at
      rw [List.map_cons, survivors_cons, if_neg hn, List.take_zero]
      intro r' hr'
      cases hr'
    rw [List.map_cons, survivors_cons, if_pos hn] at hres
    change res.2.m_recordCount =
      b.m_recordCount + (survivors (n - r.data.length) (rs.map Prod.fst) + 1) at hres
    rw [List.map_cons, survivors_cons, if_pos hn, List.take_succ_cons]
    rw [List.map_cons, stampAll, List.append_assoc, take_stamped hn] at hbuf
    obtain ⟨b₁, happend, hall⟩ := appendAll_cons hall
    obtain ⟨-, -, hmin, hcount⟩ := append_ok happend
    cases fuel with
    | zero => cases h
    | succ fuel =>
      rw [replay_record hbuf] at h
      obtain ⟨⟨s, c⟩, hnext, h⟩ := Exec.of_bind h
      by_cases hs : s = .B_OK
      swap
      · simp only [hs, if_false] at h
        cases h
        have hsame := recordCount_of_append_fails hnext hs
        change c.m_recordCount = _ at hres
        rw [hsame] at hres
        change b.m_recordCount = _ at hres
        omega
      subst hs
      have hr : r.Replayable := by
        have hkind := append_replayable rfl hnext
        rw [Record.Replayable, show (r.restamp _).data = r.stamped _ from rfl, r.isDML_stamped,
          r.type_stamped] at hkind
        exact hkind
      -- the block goes on like the original one
      have hmask : (b.mask flag redo).append Γ
          (r.restamp (b.m_minRecordId + b.m_recordCount)) io.append = _ :=
        append_mask hr hflag happend
      rw [hmask] at hnext
      cases hnext
      have hid : b₁.m_minRecordId + b₁.m_recordCount = b.m_minRecordId + b.m_recordCount + 1 := by
        omega
      rw [← List.append_assoc, ← hid] at hbuf
      have hrest := ih hbuf hall h (by omega)
      intro r' hr'
      cases List.mem_cons.mp hr' with
      | inl heq =>
        rw [heq]
        exact hr
      | inr hmem => exact hrest r' hmem

/-! ## The whole recovery -/

theorem contents_appendAll {acc : List Record} {total : Nat}
    (hl : Layout Γ b) (hc : Contents Γ (fun _ _ => True) b acc) (hp : Packed b total)
    (h : appendAll Γ rs b = .ok (some b')) :
    Contents Γ (fun _ _ => True) b' (acc ++ rs.map Prod.fst) ∧
      Packed b' (total + ((rs.map Prod.fst).map fun r => r.data.length).sum) ∧
      b'.m_maxSize = b.m_maxSize := by
  induction rs generalizing b acc total with
  | nil =>
    cases h
    simpa using ⟨hc, hp⟩
  | cons x rs ih =>
    obtain ⟨r, io⟩ := x
    obtain ⟨b₁, happend, h⟩ := appendAll_cons h
    have hcall : b.step Γ (.append r io) = .ok (.B_OK, b₁) := happend
    have hl₁ := hl.step hcall
    have hlands : LandsIn Γ (fun _ _ => True) b (.append r io) := trivial
    have hc₁ := hc.step hl (fun _ => hlands) hcall
    have hp₁ : Packed b₁ (total + r.data.length) ∧ b₁.m_maxSize = b.m_maxSize := by
      rcases append_cases happend with ⟨hs, -⟩ | ⟨-, b₂, hb₂, hcase⟩
      · cases hs
      rcases hcase with ⟨hs, -⟩ | ⟨b₃, t, slot, p, redo, hopened, hready, -, hend⟩
      · cases hs
      rcases hend with ⟨hs, -⟩ | ⟨-, tables, -, rfl⟩
      · exact absurd rfl hs
      have hl₂ := hl.getTableData ((Op.append r io).known Γ) hb₂
      obtain ⟨hp₂, hmax₂⟩ := hp.getTableData hb₂
      obtain ⟨hp₃, hmax₃⟩ := hp₂.opened hl₂ hopened
      have hplace := hp₃.place (hl₂.opened hopened) hready
      exact ⟨⟨hplace.pages, hplace.fits, hplace.size, hplace.used, hplace.limit⟩,
        hmax₃.trans hmax₂⟩
    obtain ⟨hc', hp', hmax'⟩ := ih hl₁ hc₁ hp₁.1 h
    refine ⟨?_, ?_, hmax'.trans hp₁.2⟩
    · rw [accepted, List.append_assoc] at hc'
      exact hc'
    · rw [List.map_cons, List.map_cons, List.sum_cons, ← Nat.add_assoc]
      exact hp'

/-- The block that `database::recoveryFromRedo` makes for a redo file. -/
def crashed (blockId bufSize : Nat) (flushSize flushPeriod : Int)
    (disk : Option (List UInt8)) : AppendingBlock I :=
  let b := create blockId { appending := true } bufSize flushSize flushPeriod 0
  b.setRedo { b.redo with file := disk }

/-- With system calls that work, a file without a complete head counts as finished, and any other
    file is replayed. -/
theorem recoveryFromRedo_eq (Γ : MetaDataCollection I) (fuel blockId bufSize : Nat)
    (flushSize flushPeriod : Int) (disk : Option (List UInt8)) (hio : io.Works)
    (hlen : (disk.getD []).length < 2 ^ 31) :
    ∃ redo : RedoState, recoveryFromRedo Γ fuel io
        (crashed blockId bufSize flushSize flushPeriod disk : AppendingBlock I) =
      if (disk.getD []).length < 8 then
        .ok (some (0, (crashed blockId bufSize flushSize flushPeriod disk).setRedo redo))
      else replay Γ io (disk.getD []) fuel 8 (((crashed blockId bufSize flushSize flushPeriod
        disk).setRedo redo).startReplay (disk.getD [])) := by
  refine ⟨{ (crashed blockId bufSize flushSize flushPeriod disk : AppendingBlock I).redo with
    m_redoFd := io.openFd, openFd := some io.openFd, file := some (disk.getD []) }, ?_⟩
  have hopen : (crashed blockId bufSize flushSize flushPeriod disk :
      AppendingBlock I).redo.openRedoFile false 0 io.append =
      (true, { (crashed blockId bufSize flushSize flushPeriod disk : AppendingBlock I).redo with
        m_redoFd := io.openFd, openFd := some io.openFd, file := some (disk.getD []) }) := by
    have hvalid : fileHandleValid io.append.openFd = true := hio.opened
    unfold RedoState.openRedoFile
    rw [if_pos hvalid]
    rfl
  have hsize : Int.bmod ((disk.getD []).length) (2 ^ 32) = (disk.getD []).length := by
    rw [Int.bmod_def]
    split <;> omega
  have hfd : ¬ (0 : Int) < (crashed blockId bufSize flushSize flushPeriod disk :
      AppendingBlock I).redo.m_redoFd := by
    show ¬ (0 : Int) < 0
    omega
  have hlog : (crashed blockId bufSize flushSize flushPeriod disk :
      AppendingBlock I).m_minLogOffset = 0 := rfl
  unfold recoveryFromRedo
  simp only [hfd, if_false, hlog, hopen, if_true, hio.sized, hio.allocated, hio.rewound,
    hio.readAll, setRedo, RedoState.content, Option.getD_some, hsize, Int.toNat_natCast,
    List.take_length, and_self]
  rw [if_neg (by omega)]
  by_cases hshort : (disk.getD []).length < 8
  · rw [if_pos (by omega), if_pos hshort]
  · rw [if_neg (by omega), if_neg hshort]

theorem minRecordId_appendAll
    (h : appendAll Γ rs b = .ok (some b')) : b'.m_minRecordId = b.m_minRecordId := by
  induction rs generalizing b with
  | nil =>
    cases h
    rfl
  | cons x rs ih =>
    obtain ⟨b₁, happend, h⟩ := appendAll_cons h
    rw [ih h, (append_ok happend).2.2.1]

theorem survivors_le (n : Nat) (rs : List Record) : survivors n rs ≤ rs.length := by
  induction rs generalizing n with
  | nil => exact Nat.le_refl _
  | cons r rs ih =>
    rw [survivors_cons]
    split
    · have hle := ih (n - r.data.length)
      rw [List.length_cons]
      omega
    · exact Nat.zero_le _

theorem survivors_min {rs : List Record} {n m : Nat}
    (hm : (rs.map fun r => r.data.length).sum ≤ m) : survivors (min n m) rs = survivors n rs := by
  induction rs generalizing n m with
  | nil => rfl
  | cons r rs ih =>
    rw [List.map_cons, List.sum_cons] at hm
    rw [survivors_cons, survivors_cons]
    by_cases hn : r.data.length ≤ n
    · rw [if_pos (by omega), if_pos hn, show min n m - r.data.length =
        min (n - r.data.length) (m - r.data.length) by omega, ih (by omega)]
    · rw [if_neg (by omega), if_neg hn]

/-- The end marker written by `finishRedo` lies completely in the first `L` bytes of the file. -/
def Marked (fin : Option RedoIo) (file : List UInt8) (L : Nat) : Prop :=
  fin.isSome = true ∧ endMarker <:+ file ∧ file.length ≤ L

/-- What recovery should give for the block `b` that stored the records `rs`, from the first `L`
    bytes of its redo file: the first record id of `b`, the records that are complete in the file,
    and the value `0` exactly for a finished file. -/
structure Restores (b : AppendingBlock I) (rs : List Record) (fin : Option RedoIo)
    (file : List UInt8) (L : Nat) (res : Int × AppendingBlock I) : Prop where
  minId : res.2.m_minRecordId = b.m_minRecordId
  count : res.2.m_recordCount = survivors ((file.take L).length - 8) rs
  records : ∀ i r, (rs.take (survivors ((file.take L).length - 8) rs))[i]? = some r →
    ∃ slot offset, Placed res.2 i r slot offset
  finished : res.1 = 0 ↔ Marked fin file L

/-- The condition under which it does: the file was opened under the descriptor of the block and
    something was written to it, at least the head of the file survives, the end marker does not,
    the first record id is the number that stands in the head, and the complete records are of
    kinds that can be copied. -/
structure Restorable (startID : Nat) (fd : Int) (rs : List Record) (fin : Option RedoIo)
    (L : Nat) : Prop where
  opened : fd < 0
  written : rs ≠ [] ∨ fin.isSome = true
  head : 8 ≤ L
  unmarked : ¬ (fin.isSome = true ∧ 16 + (rs.map fun r => r.data.length).sum ≤ L)
  startID : startID = 0
  kinds : ∀ r ∈ rs.take (survivors (L - 8) rs), r.Replayable

section Crash

variable {blockId : Nat} {flag : BlockFlag} {bufSize : Nat} {flushSize flushPeriod : Int}
  {startID : Nat} {fd : Int} {rs : List (Record × RedoIo)} {fin : Option RedoIo}
  {redo : RedoState} {L : Nat}

theorem contents_packed
    (hall : appendAll Γ rs ((create blockId flag bufSize flushSize flushPeriod startID).withRedoFd
      fd) = .ok (some b)) :
    Contents Γ (fun _ _ => True) b (rs.map Prod.fst) ∧
      ((rs.map Prod.fst).map fun r => r.data.length).sum ≤ bufSize := by
  have hl := layout_create Γ blockId flag bufSize flushSize flushPeriod startID
  have hc := contents_create Γ (fun _ _ => True) blockId flag bufSize flushSize flushPeriod startID
  have hp := packed_create (I := I) blockId flag bufSize flushSize flushPeriod startID
  have hext : Extends (create blockId flag bufSize flushSize flushPeriod startID)
      ((create blockId flag bufSize flushSize flushPeriod startID : AppendingBlock I).withRedoFd
        fd) :=
    .of_same rfl rfl rfl fun _ t ht => ⟨t, ht, fun _ hs => hs⟩
  obtain ⟨hcontents, hpacked, hmax⟩ := contents_appendAll (b := (create blockId flag bufSize
      flushSize flushPeriod startID).withRedoFd fd)
    ⟨hl.pageId, hl.table, hl.default, hl.owner, hl.pageCount, hl.tableCount⟩
    (hc.extends hext rfl hc.recordIds)
    ⟨hp.pages, hp.fits, hp.size, hp.used, hp.limit⟩ hall
  have hle := hpacked.total_le
  rw [hmax, Nat.zero_add] at hle
  exact ⟨hcontents, hle⟩

theorem length_markerOf (fin : Option RedoIo) :
    (markerOf fin).length = if fin.isSome then 8 else 0 := by
  unfold markerOf
  split
  · exact length_endMarker
  · rfl

theorem length_written (id : Nat) (rs : List Record) (fin : Option RedoIo) :
    (LE.bytes 8 0 ++ (stampAll id rs ++ markerOf fin)).length =
      8 + (rs.map fun r => r.data.length).sum + if fin.isSome then 8 else 0 := by
  rw [List.length_append, List.length_append, LE.length_bytes, length_stampAll, length_markerOf]
  omega

theorem marked_written (id : Nat) (rs : List Record) (fin : Option RedoIo) (L : Nat) :
    Marked fin (LE.bytes 8 0 ++ (stampAll id rs ++ markerOf fin)) L ↔
      fin.isSome = true ∧ 16 + (rs.map fun r => r.data.length).sum ≤ L := by
  have hlen := length_written id rs fin
  constructor
  · rintro ⟨hsome, -, hle⟩
    rw [hsome, if_pos rfl] at hlen
    exact ⟨hsome, by omega⟩
  · rintro ⟨hsome, hle⟩
    rw [hsome, if_pos rfl] at hlen
    refine ⟨hsome, ?_, by omega⟩
    rw [markerOf, hsome, if_pos rfl, ← List.append_assoc]
    exact List.suffix_append _ _

/-- With `0` in the head of the file, the block that is filled again is the original one before its
    first append, up to flags and redo state. -/
theorem startReplay_crashed {disk : Option (List UInt8)} {redo : RedoState} {buf : List UInt8}
    (hhead : LE.nat (buf.slice 0 8) = 0) (flag : BlockFlag) (fd : Int) :
    ((crashed blockId bufSize flushSize flushPeriod disk : AppendingBlock I).setRedo
      redo).startReplay buf =
      ((create blockId flag bufSize flushSize flushPeriod 0).withRedoFd fd).mask
        { appending := true } redo := by
  unfold startReplay
  rw [hhead]
  rfl

/-- Recovery of a file cut at `L` gives what it should. -/
def Recovered (Γ : MetaDataCollection I) (blockId bufSize : Nat) (flushSize flushPeriod : Int)
    (b : AppendingBlock I) (rs : List Record) (fin : Option RedoIo) (redo : RedoState)
    (io : RecoveryIo) (L : Nat) : Prop :=
  ∃ fuel res, recoveryFromRedo Γ fuel io
      (crashed blockId bufSize flushSize flushPeriod (redo.file.map (List.take L))) =
        .ok (some res) ∧ Restores b rs fin redo.content L res

theorem disk_eq (redo : RedoState) (L : Nat) :
    (redo.file.map (List.take L)).getD [] = redo.content.take L := by
  cases hf : redo.file <;> simp [RedoState.content, hf]

theorem not_recovered_of_short {recs : List Record} (hio : io.Works)
    (hlen : (redo.content.take L).length < 8) (hmark : ¬ Marked fin redo.content L) :
    ¬ Recovered Γ blockId bufSize flushSize flushPeriod b recs fin redo io L := by
  rintro ⟨fuel, res, hrec, hres⟩
  obtain ⟨redo', heq⟩ := recoveryFromRedo_eq Γ fuel blockId bufSize flushSize flushPeriod
    (redo.file.map (List.take L)) hio (by rw [disk_eq]; omega)
  rw [disk_eq, if_pos hlen, hrec] at heq
  cases heq
  exact hmark (hres.finished.mp rfl)

/-- What a cut redo file restores, in terms of the bytes that were written to it. -/
theorem recovered_iff_of_written (hio : io.Works)
    (hall : appendAll Γ rs ((create blockId flag bufSize flushSize flushPeriod startID).withRedoFd
      fd) = .ok (some b))
    (hfile : redo.content =
      LE.bytes 8 0 ++ (stampAll startID (rs.map Prod.fst) ++ markerOf fin))
    (hbound : redo.content.length < 2 ^ 31) (hL : 8 ≤ L) :
    Recovered Γ blockId bufSize flushSize flushPeriod b (rs.map Prod.fst) fin redo io L ↔
      ¬ (fin.isSome = true ∧ 16 + ((rs.map Prod.fst).map fun r => r.data.length).sum ≤ L) ∧
      startID = 0 ∧
      ∀ r ∈ (rs.map Prod.fst).take (survivors (L - 8) (rs.map Prod.fst)), r.Replayable := by
  have hmarked := marked_written startID (rs.map Prod.fst) fin L
  rw [← hfile] at hmarked
  have hwhole := length_written startID (rs.map Prod.fst) fin
  rw [← hfile] at hwhole
  -- the head survives, and the rest is cut behind it
  have hbuf : redo.content.take L = LE.bytes 8 0 ++
      (stampAll startID (rs.map Prod.fst) ++ markerOf fin).take (L - 8) := by
    rw [hfile, List.take_append, LE.length_bytes, List.take_of_length_le (by simpa using hL)]
  have hsurvive : survivors ((redo.content.take L).length - 8) (rs.map Prod.fst) =
      survivors (L - 8) (rs.map Prod.fst) := by
    rw [List.length_take, show min L redo.content.length - 8 =
      min (L - 8) (redo.content.length - 8) by omega]
    exact survivors_min (by omega)
  have hlen : ¬ (redo.content.take L).length < 8 := by
    rw [List.length_take]
    omega
  have heq (fuel : Nat) := recoveryFromRedo_eq Γ fuel blockId bufSize flushSize flushPeriod
    (redo.file.map (List.take L)) hio (by rw [disk_eq, List.length_take]; omega)
  simp only [disk_eq, if_neg hlen] at heq
  have hhead : LE.nat ((redo.content.take L).slice 0 8) = 0 := by
    rw [hbuf, List.slice_append_left _ (by simp)]
    rfl
  have hmin : b.m_minRecordId = startID := minRecordId_appendAll hall
  constructor
  · rintro ⟨fuel, res, hrec, hres⟩
    obtain ⟨redo', heq⟩ := heq fuel
    rw [hrec] at heq
    obtain ⟨⟨-, hmin'⟩, hret⟩ := replay_not_finished heq.symm
    have hstart : startID = 0 := by
      rw [← hmin, ← hres.minId, hmin']
      exact hhead
    subst hstart
    refine ⟨fun hmark => hret (hres.finished.mpr (hmarked.mpr hmark)), rfl, ?_⟩
    rw [startReplay_crashed hhead flag fd] at heq
    apply replayable_of_count rfl hbuf hall heq.symm
    rw [hres.count, hsurvive]
    exact (Nat.zero_add _).symm
  · rintro ⟨hmark, rfl, hkinds⟩
    obtain ⟨redo', heq⟩ := heq (rs.length + 1)
    rw [startReplay_crashed hhead flag fd] at heq
    have hoff : BlockFlag.hasRedo { appending := true } = false := rfl
    obtain ⟨bₖ, redo'', hk, hreplay⟩ := replay_survivors redo' hoff hio.truncated
      (by rw [length_markerOf]; unfold recordHeadSize; split <;> omega) hbuf hall hkinds
      (Nat.lt_succ_self _)
    refine ⟨rs.length + 1, _, heq.trans hreplay, ?_⟩
    have hcontents := (contents_packed hk).1
    rw [List.map_take] at hcontents
    refine ⟨?_, ?_, ?_, ?_⟩
    · rw [hmin]
      exact minRecordId_appendAll hk
    · rw [hsurvive]
      refine hcontents.count.trans ?_
      rw [List.length_take, Nat.min_eq_left (survivors_le _ _)]
    · intro i r hr
      rw [hsurvive] at hr
      obtain ⟨slot, offset, t, -, hplaced, -⟩ := hcontents.placed i r hr
      exact ⟨slot, offset, hplaced.position, hplaced.bytes⟩
    · rw [hmarked]
      exact ⟨fun hret => (nomatch hret), fun hyes => absurd hyes hmark⟩

end Crash

/-- Recovery gives what it should exactly under that condition, for every sequence of appends, with
    or without `finishRedo`, and every length at which the file is cut. -/
theorem recovery_restores_iff (Γ : MetaDataCollection I) (blockId : Nat) (flag : BlockFlag)
    (bufSize : Nat) (flushSize flushPeriod : Int) (startID : Nat) (fd : Int)
    (hbuf : bufSize ≤ 1024 * 1024 * 1024) (hflag : flag.hasRedo = true)
    (rs : List (Record × RedoIo)) (b : AppendingBlock I)
    (hall : appendAll Γ rs ((create blockId flag bufSize flushSize flushPeriod startID).withRedoFd fd) =
      .ok (some b))
    (fin : Option RedoIo) (redo : RedoState) (hfin : b.finished fin = (true, redo))
    (io : RecoveryIo) (hio : io.Works) (L : Nat) :
    Recovered Γ blockId bufSize flushSize flushPeriod b (rs.map Prod.fst) fin redo io L ↔
      Restorable startID fd (rs.map Prod.fst) fin L := by
  have hfile := file_of_appendAll hflag hall hfin
  have hsum := (contents_packed hall).2
  by_cases hwritten : fd < 0 ∧ (rs ≠ [] ∨ fin.isSome = true)
  · rw [if_pos hwritten] at hfile
    have hlen := length_written startID (rs.map Prod.fst) fin
    rw [← hfile] at hlen
    have hbound : redo.content.length < 2 ^ 31 := by
      split at hlen <;> omega
    have hrs : rs.map Prod.fst ≠ [] ∨ fin.isSome = true := by
      simpa using hwritten.2
    by_cases hL : 8 ≤ L
    · rw [recovered_iff_of_written hio hall hfile hbound hL]
      constructor
      · rintro ⟨hmark, hstart, hkinds⟩
        exact ⟨hwritten.1, hrs, hL, hmark, hstart, hkinds⟩
      · intro h
        exact ⟨h.unmarked, h.startID, h.kinds⟩
    · -- not even the head survives
      constructor
      · intro hrec
        refine absurd hrec (not_recovered_of_short hio ?_ ?_)
        · rw [List.length_take]
          omega
        · rintro ⟨-, -, hle⟩
          omega
      · intro h
        exact absurd h.head hL
  · -- nothing was ever written to the file
    rw [if_neg hwritten] at hfile
    constructor
    · intro hrec
      refine absurd hrec (not_recovered_of_short hio ?_ ?_)
      · rw [hfile, List.take_nil]
        decide
      · rintro ⟨-, hsuffix, -⟩
        rw [hfile] at hsuffix
        have hle := hsuffix.length_le
        exact absurd hle (by decide)
    · intro h
      exact absurd ⟨h.opened, by simpa using h.written⟩ hwritten

/-- A new block of 1 MB with redo. -/
def redoBlock (startID : Nat) : AppendingBlock noIndex :=
  create 1 { appending := true, hasRedo := true } (1024 * 1024) (-1) (-1) startID

def quietRecovery : RecoveryIo where
  openFd := 3
  sized := true
  allocated := true
  rewound := true
  readAll := true
  truncated := true

def shortDdl : Record := ddlRecord 1 one_lt_maxText

/-- A block that starts with an invalid descriptor and with record id `0` is recovered from the head
    of its file and one complete record. -/
theorem recovery_restores_iff_ddl : ∃ (b : AppendingBlock noIndex),
    appendAll noTables [(shortDdl, quietIo)] ((redoBlock 0).withRedoFd (-1)) = .ok (some b) ∧
    Recovered noTables 1 (1024 * 1024) (-1) (-1) b [shortDdl] none b.redo quietRecovery 59 := by
  have hexec : (appendAll noTables [(shortDdl, quietIo)] ((redoBlock 0).withRedoFd (-1)) >>=
      fun o => .ok o.isSome) = .ok true := by
    rfl
  obtain ⟨o, hall, ho⟩ := Exec.of_bind hexec
  obtain ⟨b, rfl⟩ := Option.isSome_iff_exists.mp (Except.ok.inj ho)
  refine ⟨b, hall, ?_⟩
  refine (recovery_restores_iff noTables 1 _ (1024 * 1024) (-1) (-1) 0 (-1) (by omega) rfl
    [(shortDdl, quietIo)] b hall none b.redo rfl quietRecovery
    ⟨rfl, rfl, rfl, rfl, rfl, rfl⟩ 59).mpr ?_
  refine ⟨by omega, Or.inl (by simp), by omega, (fun h => by cases h.1), rfl, ?_⟩
  intro r hr
  have hmem := List.mem_of_mem_take hr
  simp only [List.map_cons, List.map_nil, List.mem_singleton] at hmem
  subst hmem
  exact Or.inr (type_ddlRecord ..)

/-- The descriptor of a new block is `0`, which passes for valid: the record goes to descriptor `0`,
    the redo file stays empty, and recovery reports it as finished without a record. -/
theorem recovery_reports_finished : ∃ (b : AppendingBlock noIndex),
    appendAll noTables [(shortDdl, quietIo)] (redoBlock 1) = .ok (some b) ∧
    b.m_recordCount = 1 ∧ b.redo.content = [] ∧
    ¬ Recovered noTables 1 (1024 * 1024) (-1) (-1) b [shortDdl] none b.redo quietRecovery 0 := by
  have hexec : (appendAll noTables [(shortDdl, quietIo)] (redoBlock 1) >>=
      fun o => .ok (o.map fun b => (b.m_recordCount, b.redo.content))) = .ok (some (1, [])) := by
    rfl
  obtain ⟨o, hall, ho⟩ := Exec.of_bind hexec
  obtain ⟨b, rfl, hfacts⟩ := Option.map_eq_some_iff.mp (Except.ok.inj ho)
  simp only [Prod.mk.injEq] at hfacts
  refine ⟨b, hall, hfacts.1, hfacts.2, not_recovered_of_short ?_ ?_ ?_⟩
  · exact ⟨rfl, rfl, rfl, rfl, rfl, rfl⟩
  · rw [hfacts.2]
    decide
  · rintro ⟨hsome, -⟩
    cases hsome

end AppendingBlock

end DBStream.Native
