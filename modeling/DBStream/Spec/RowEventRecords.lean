import DBStream.Spec.RowEventRoom

/-!
# The records of a rows event

What is read of the records that the parser makes of a rows event.  An update has the image before it
as the new values and the image after it as the old ones.  So the values come out right only in columns
that are the same in both; an old null reads as the new value, and an old text as far as its place is
that of the new one.
-/

namespace DBStream.Native.DATA_SOURCE

open Meta DMLRecord
open RawMemory (ChangedBelow)

/-! ## What is to be found -/

/-- The record that is built stays within its memory, and it has the property when it is loaded,
    whatever the memory was. -/
def ParsedRow.Holds (r : ParsedRow) (P : DMLRecord → Prop) : Prop :=
  ∀ mem, ∃ w d, r.build mem = .ok w ∧ ChangedBelow r.room mem w.mem ∧
    DMLRecord.load w.mem r.meta' = .ok d ∧ P d

/-- The new values of a record are those of an image, in the columns that are present. -/
def ShowsImage (m : Meta.TableMeta) (present : Nat → Bool) (im : Image) (d : DMLRecord) : Prop :=
  ∀ i t, m.types[i]? = some t → present i = true → Shows d i t (im.value i)

/-- The old values of a record are those of an image, in the columns that are present. -/
def ShowsOldImage (m : Meta.TableMeta) (present : Nat → Bool) (im : Image) (d : DMLRecord) : Prop :=
  ∀ i t, m.types[i]? = some t → present i = true → ShowsOld d i t (im.value i)

/-- The records are those of the rows, in their order. -/
def RowsBody.Recorded (columns : List UInt8) : RowsBody → List ParsedRow → Prop
  | write rows, records => List.Forall₂ (fun im r =>
      r.type = .R_INSERT ∧ r.Holds (ShowsImage r.meta' (bit columns) im)) rows records
  | delete rows, records => List.Forall₂ (fun im r =>
      r.type = .R_DELETE ∧ r.Holds (ShowsImage r.meta' (bit columns) im)) rows records
  | update updated rows, records => List.Forall₂ (fun im r =>
      r.type = .R_UPDATE ∧ r.Holds fun d => ShowsImage r.meta' (bit updated) im.2 d ∧
        ShowsOldImage r.meta' (bit columns) im.1 d) rows records

/-- The parser makes of the event one record for each row, with its values. -/
def Decodes (p : BinlogEventParser) (E : List ColumnEncoding) (ev : RowsEvent)
    (behind : List UInt8) : Prop :=
  ∃ records, p.parser (ev.bytes E ++ behind) (ev.size E) = .ok (some (.OK, records)) ∧
    ev.body.Recorded ev.columns records

/-! ## What is found -/

/-- The values that are set, when the second image is set as the old values. -/
def oldsOf (im : Image × Image) : List OldColumn := im.2.row.map BinlogEventParser.oldColumn

/-- The images before and after an update that come out right: a column that the second one has is
    the same in the first, and where it has a value and both have the column, the value can be
    restored. -/
structure Kept (m : Meta.TableMeta) (before after : Nat → Bool) (im : Image × Image) : Prop where
  same : ∀ i t, m.types[i]? = some t → after i = true → im.1.value i = im.2.value i
  restorable : ∀ i t v, m.types[i]? = some t → before i = true → im.2.value i = some v →
    RestorableAt m.types im.1.row (oldsOf im) i t (im.1.value i) (.value v)

def RowsBody.Kept (m : Meta.TableMeta) (columns : List UInt8) : RowsBody → Prop
  | update updated rows => ∀ im ∈ rows, DATA_SOURCE.Kept m (bit columns) (bit updated) im
  | _ => True

/-- The values that are set have the sizes of their types, and the record ends below 4 GiB. -/
def ParsedRow.Bounded (r : ParsedRow) : Prop :=
  RowFits r.meta'.types r.row ∧
    match r.olds with
    | none => recordEnd r.meta' r.row ≤ 2 ^ 32
    | some olds => updateEnd r.meta' r.row olds ≤ 2 ^ 32

def RecordsBounded (p : BinlogEventParser) (E : List ColumnEncoding) (ev : RowsEvent)
    (behind : List UInt8) : Prop :=
  ∀ status records, p.parser (ev.bytes E ++ behind) (ev.size E) = .ok (some (status, records)) →
    ∀ r ∈ records, r.Bounded

/-! ## The record of one image -/

section Record

variable {E : List ColumnEncoding} {present before after : Nat → Bool} {record r : ParsedRow}
  {im : Image}

theorem Image.getElem?_row {i : Nat} (h : i < im.row.length) : im.row[i]? = some (im.value i) := by
  simp [Image.value, List.getD_eq_getElem?_getD, List.getElem?_eq_getElem h]

theorem ParsedRow.Holds.staysWithin {P : DMLRecord → Prop} (h : r.Holds P) : r.StaysWithin := by
  intro mem
  obtain ⟨w, d, hbuild, hbelow, -⟩ := h mem
  exact ⟨w, hbuild, hbelow⟩

theorem ParsedRow.Holds.imp {P Q : DMLRecord → Prop} (h : r.Holds P) (hPQ : ∀ d, P d → Q d) :
    r.Holds Q := by
  intro mem
  obtain ⟨w, d, hbuild, hbelow, hload, hd⟩ := h mem
  exact ⟨w, d, hbuild, hbelow, hload, hPQ d hd⟩

/-- A record of one image shows the values that are set in it. -/
theorem ParsedRow.shows_of_build (hbuilt : Built r.meta') (hsize : fixedSize r.meta'.types < 2 ^ 16)
    (htype : r.type = .R_INSERT ∨ r.type = .R_DELETE) (holds : r.olds = none)
    (hrow : RowFits r.meta'.types r.row) (hbound : recordEnd r.meta' r.row ≤ 2 ^ 32 + 45)
    (mem : RawMemory) :
    ∃ w d, r.build mem = .ok w ∧ DMLRecord.load w.mem r.meta' = .ok d ∧
      ∀ i t value, r.meta'.types[i]? = some t → r.row[i]? = some value → Shows d i t value := by
  have hfits : imageEnd r.meta'.types (cells r.meta'.types r.row) < 2 ^ 32 := by
    unfold recordEnd columnsAt at hbound
    omega
  obtain ⟨w, d, hwrite, hload, hshows, -⟩ := writeRow_spec hbuilt hsize htype hrow hfits mem
  exact ⟨w, d, by rw [ParsedRow.build, holds]; exact hwrite, hload, hshows⟩

/-- What a record of one image shows has been set in it. -/
theorem ParsedRow.Holds.showsNew (hbuilt : Built r.meta')
    (hsize : fixedSize r.meta'.types < 2 ^ 16)
    (htype : r.type = .R_INSERT ∨ r.type = .R_DELETE) (holds : r.olds = none)
    (hbounded : r.Bounded) (hvalues : ValuesFit r.meta' E) (him : RowValid E im.row)
    (h : r.Holds (ShowsImage r.meta' present im)) : ShowsNew E present im r := by
  obtain ⟨hrow, hend⟩ := hbounded
  rw [holds] at hend
  have himage := rowFits_of_valid hvalues him
  intro i hi hpresent
  have hlength : r.meta'.types.length = E.length := hvalues.length_eq
  obtain ⟨w, d, hbuild, hload, hshows⟩ :=
    r.shows_of_build hbuilt hsize htype holds hrow (by simp only at hend; omega) fun _ => 0
  obtain ⟨w', d', hbuild', -, hload', hshown⟩ := h fun _ => 0
  cases hbuild.symm.trans hbuild'
  cases hload.symm.trans hload'
  obtain ⟨t, ht⟩ : ∃ t, r.meta'.types[i]? = some t :=
    ⟨_, List.getElem?_eq_getElem (show i < r.meta'.types.length by omega)⟩
  have hset : r.row[i]? = some (r.row.getD i none) := by
    have hi' : i < r.row.length := by
      rw [← hrow.length_eq]
      omega
    simp [List.getD_eq_getElem?_getD, List.getElem?_eq_getElem hi']
  have hvalue : im.row[i]? = some (im.value i) := Image.getElem?_row (by
    rw [← himage.length_eq]
    omega)
  exact (hshows i _ _ ht hset).value_eq (hshown i _ ht hpresent)
    (hrow.valueFits ht hset) (himage.valueFits ht hvalue)

/-! ## Images of an update -/

section Update

variable {m : Meta.TableMeta} {im : Image × Image} {type : RecordType} {mem : RawMemory} {i : Nat}
  {t : Meta.ColumnType} {v : List UInt8}

/-- What is at the number of a column in the two images. -/
theorem getElem?_images (hvalues : ValuesFit m E) (hbefore : im.1.Of E before)
    (hafter : im.2.Of E after) (ht : m.types[i]? = some t) :
    im.1.row[i]? = some (im.1.value i) ∧ im.2.row[i]? = some (im.2.value i) ∧
      (oldsOf im)[i]? = some (BinlogEventParser.oldColumn (im.2.value i)) := by
  have hlength : m.types.length = E.length := hvalues.length_eq
  have hi : i < E.length := hlength ▸ (List.getElem?_eq_some_iff.mp ht).1
  have hfirst := im.1.getElem?_row (i := i) (by rw [hbefore.length_row]; exact hi)
  have hsecond := im.2.getElem?_row (i := i) (by rw [hafter.length_row]; exact hi)
  exact ⟨hfirst, hsecond, by rw [oldsOf, List.getElem?_map, hsecond]; rfl⟩

/-- A column that has a value in an image is one that the image has. -/
theorem Image.Of.present_of_value (h : im.2.Of E after) (hvalues : ValuesFit m E)
    (ht : m.types[i]? = some t) (hvalue : im.2.value i = some v) : after i = true := by
  have hlength : m.types.length = E.length := hvalues.length_eq
  by_contra habsent
  have hnone := h.absent i (hlength ▸ (List.getElem?_eq_some_iff.mp ht).1) (by simpa using habsent)
  rw [hnone] at hvalue
  cases hvalue

variable (id : Nat) (hbuilt : Built m) (hsize : fixedSize m.types < 2 ^ 16)
  (hvalues : ValuesFit m E) (hbefore : im.1.Of E before) (hafter : im.2.Of E after)
  (hfits : imageEnd m.types (cells m.types im.1.row) < 2 ^ 32)
  (himage : OldImage m type im.1.row (imageEnd m.types (cells m.types im.1.row)) (oldsOf im) mem)

include hbuilt hsize hvalues hbefore hafter hfits himage

/-- The record shows the first image as its new one. -/
theorem shows_first (ht : m.types[i]? = some t) :
    Shows (recordOld m id (imageEnd m.types (cells m.types im.1.row)) mem) i t (im.1.value i) :=
  himage.new.shows hbuilt hsize (rowFits_of_valid hvalues hbefore.valid) hfits rfl rfl rfl rfl rfl ht
    (getElem?_images hvalues hbefore hafter ht).1

/-- What the record shows is the second image just when no column that this one has is changed. -/
theorem showsImage_second_iff :
    ShowsImage m after im.2 (recordOld m id (imageEnd m.types (cells m.types im.1.row)) mem) ↔
      ∀ i t, m.types[i]? = some t → after i = true → im.1.value i = im.2.value i := by
  have hshows := fun i t (ht : m.types[i]? = some t) =>
    shows_first id hbuilt hsize hvalues hbefore hafter hfits himage ht
  constructor
  · intro hnew i t ht hi
    obtain ⟨hfirst, hsecond, -⟩ := getElem?_images hvalues hbefore hafter ht
    exact (hshows i t ht).value_eq (hnew i t ht hi)
      ((rowFits_of_valid hvalues hbefore.valid).valueFits ht hfirst)
      ((rowFits_of_valid hvalues hafter.valid).valueFits ht hsecond)
  · intro hsame i t ht hi
    rw [← hsame i t ht hi]
    exact hshows i t ht

variable (holds : imageEnd m.types (oldCells (imageEnd m.types (cells m.types im.1.row)) m.types
    (oldsOf im)) < 2 ^ 32)

include holds

/-- A value that is in both images is read as the old one just when the layout restores it. -/
theorem showsOld_value_iff (ht : m.types[i]? = some t) (hfirst : im.1.value i = some v)
    (hsecond : im.2.value i = some v) :
    ShowsOld (recordOld m id (imageEnd m.types (cells m.types im.1.row)) mem) i t (im.1.value i) ↔
      RestorableAt m.types im.1.row (oldsOf im) i t (im.1.value i) (.value v) := by
  obtain ⟨hnewAt, -, holdAt⟩ := getElem?_images hvalues hbefore hafter ht
  rw [hsecond] at holdAt
  rw [hfirst] at hnewAt ⊢
  exact himage.showsOld_iff (rowFits_of_valid hvalues hbefore.valid) rfl hfits
    (oldFits_of_rowFits (rowFits_of_valid hvalues hafter.valid)) holds hbuilt hsize ht hnewAt holdAt

/-- The old values of the record are the first image, when it is the second one too, just when the
    layout restores each value. -/
theorem showsOldImage_first_iff
    (hsame : ∀ i t, m.types[i]? = some t → after i = true → im.1.value i = im.2.value i) :
    ShowsOldImage m before im.1 (recordOld m id (imageEnd m.types (cells m.types im.1.row)) mem) ↔
      ∀ i t v, m.types[i]? = some t → before i = true → im.2.value i = some v →
        RestorableAt m.types im.1.row (oldsOf im) i t (im.1.value i) (.value v) := by
  have hvalue := fun i t v (ht : m.types[i]? = some t) (hsecond : im.2.value i = some v) =>
    (hsame i t ht (hafter.present_of_value hvalues ht hsecond)).trans hsecond
  constructor
  · intro hshown i t v ht hi hsecond
    exact (showsOld_value_iff id hbuilt hsize hvalues hbefore hafter hfits himage holds ht
      (hvalue i t v ht hsecond) hsecond).mp (hshown i t ht hi)
  · intro hrestored i t ht hi
    cases hsecond : im.2.value i with
    | none =>
      -- the column is not marked as updated
      obtain ⟨hnewAt, -, holdAt⟩ := getElem?_images hvalues hbefore hafter ht
      rw [hsecond] at holdAt
      exact himage.showsOld_new hbuilt hsize (rowFits_of_valid hvalues hbefore.valid) rfl hfits ht
        hnewAt holdAt rfl
    | some v =>
      exact (showsOld_value_iff id hbuilt hsize hvalues hbefore hafter hfits himage holds ht
        (hvalue i t v ht hsecond) hsecond).mpr (hrestored i t v ht hi hsecond)

private theorem showsImages_iff :
    (ShowsImage m after im.2
        (recordOld m id (imageEnd m.types (cells m.types im.1.row)) mem) ∧
      ShowsOldImage m before im.1
        (recordOld m id (imageEnd m.types (cells m.types im.1.row)) mem)) ↔
      Kept m before after im := by
  rw [showsImage_second_iff id hbuilt hsize hvalues hbefore hafter hfits himage]
  constructor
  · rintro ⟨hsame, hshown⟩
    exact ⟨hsame, (showsOldImage_first_iff id hbuilt hsize hvalues hbefore hafter hfits himage holds
      hsame).mp hshown⟩
  · rintro ⟨hsame, hrestored⟩
    exact ⟨hsame, (showsOldImage_first_iff id hbuilt hsize hvalues hbefore hafter hfits himage holds
      hsame).mpr hrestored⟩

end Update

/-! ## The record of an image, or of two -/

theorem holds_image_iff (hbuilt : Built record.meta') (hsize : fixedSize record.meta'.types < 2 ^ 16)
    (hvalues : ValuesFit record.meta' E) (htype : record.type = .R_INSERT ∨ record.type = .R_DELETE)
    (holds : record.olds = none) (him : im.Of E present)
    (hbound : recordEnd record.meta' im.row ≤ 2 ^ 32 + 45) :
    { record with row := im.row : ParsedRow }.Holds (ShowsImage record.meta' present im) ↔
      recordEnd record.meta' im.row ≤ record.room := by
  have hwithin := staysWithin_image_iff record hbuilt hsize hvalues holds him.valid hbound
  constructor
  · intro h
    exact hwithin.mp h.staysWithin
  · intro hend mem
    obtain ⟨w, hbuild, hbelow⟩ := hwithin.mpr hend mem
    obtain ⟨w', d, hbuild', hload, hshows⟩ := ParsedRow.shows_of_build
      (r := { record with row := im.row }) hbuilt hsize htype holds
      (rowFits_of_valid hvalues him.valid) hbound mem
    cases hbuild.symm.trans hbuild'
    refine ⟨w, d, hbuild, hbelow, hload, ?_⟩
    intro i t ht _
    have hlength : record.meta'.types.length = E.length := hvalues.length_eq
    exact hshows i t _ ht (im.getElem?_row (by
      rw [him.length_row, ← hlength]
      exact (List.getElem?_eq_some_iff.mp ht).1))

/-- When the record of an update shows both images of its row. -/
theorem holds_update_iff (hbuilt : Built record.meta')
    (hsize : fixedSize record.meta'.types < 2 ^ 16) (hvalues : ValuesFit record.meta' E)
    (htype : record.type = .R_UPDATE) {im : Image × Image} (hbefore : im.1.Of E before)
    (hafter : im.2.Of E after)
    (hbound : updateEnd record.meta' im.1.row (oldsOf im) ≤ 2 ^ 32 + 45) :
    (updateRecord record im).Holds (fun d => ShowsImage record.meta' after im.2 d ∧
        ShowsOldImage record.meta' before im.1 d) ↔
      updateEnd record.meta' im.1.row (oldsOf im) ≤ record.room ∧
        Kept record.meta' before after im := by
  have hwithin : (updateRecord record im).StaysWithin ↔
      updateEnd record.meta' im.1.row (oldsOf im) ≤ record.room :=
    staysWithin_update_iff record hbuilt hsize hvalues hbefore.valid hafter.valid hbound
  unfold updateEnd oldAt updatedAt columnsAt at hbound
  have hfits : imageEnd record.meta'.types (cells record.meta'.types im.1.row) < 2 ^ 32 := by omega
  have holds : imageEnd record.meta'.types (oldCells
      (imageEnd record.meta'.types (cells record.meta'.types im.1.row)) record.meta'.types
      (oldsOf im)) < 2 ^ 32 := by
    rw [imageEnd_oldCells]
    omega
  -- what is loaded of the memory that is written
  have hspec := fun mem => writeUpdate_spec hbuilt hsize (.inl htype)
    (rowFits_of_valid hvalues hbefore.valid) rfl hfits
    (oldFits_of_rowFits (rowFits_of_valid hvalues hafter.valid)) holds mem
  have hiff := fun (mem : RawMemory)
      (himage : OldImage record.meta' record.type im.1.row _ (oldsOf im) mem) =>
    showsImages_iff (mem.readWord 8 38) hbuilt hsize hvalues hbefore hafter hfits himage holds
  constructor
  · intro h
    refine ⟨hwithin.mp h.staysWithin, ?_⟩
    obtain ⟨w, d, hbuild, -, hload, hd⟩ := h fun _ => 0
    obtain ⟨mem', hwrite, hload', himage⟩ := hspec fun _ => 0
    cases hbuild.symm.trans hwrite
    cases hload.symm.trans hload'
    exact (hiff _ himage).mp hd
  · rintro ⟨hend, hkept⟩ mem
    obtain ⟨w, hbuild, hbelow⟩ := hwithin.mpr hend mem
    obtain ⟨mem', hwrite, hload, himage⟩ := hspec mem
    cases hbuild.symm.trans hwrite
    exact ⟨_, _, hbuild, hbelow, hload, (hiff _ himage).mpr hkept⟩

/-! ## The records of an event -/

theorem recorded_records_iff (record : ParsedRow) (hbuilt : Built record.meta')
    (hsize : fixedSize record.meta'.types < 2 ^ 16) (hvalues : ValuesFit record.meta' E)
    (holds : record.olds = none) {body : RowsBody} (htype : record.type = body.recordType)
    {columns : List UInt8} (hbody : body.Of E columns)
    (hbound : body.EndsWithin record.meta' (2 ^ 32 + 45)) :
    body.Recorded columns (body.records record) ↔
      body.EndsWithin record.meta' record.room ∧ body.Kept record.meta' columns := by
  cases body with
  | write rows =>
    rw [RowsBody.Recorded, RowsBody.records, List.forall₂_map_right_iff, List.forall₂_same]
    simp only [RowsBody.Kept, and_true]
    exact forall₂_congr fun im him => (and_iff_right htype).trans
      (holds_image_iff hbuilt hsize hvalues (.inl htype) holds (hbody im him) (hbound im him))
  | delete rows =>
    rw [RowsBody.Recorded, RowsBody.records, List.forall₂_map_right_iff, List.forall₂_same]
    simp only [RowsBody.Kept, and_true]
    exact forall₂_congr fun im him => (and_iff_right htype).trans
      (holds_image_iff hbuilt hsize hvalues (.inr htype) holds (hbody im him) (hbound im him))
  | update updated rows =>
    rw [RowsBody.Recorded, RowsBody.records, List.forall₂_map_right_iff, List.forall₂_same]
    refine (forall₂_congr fun im him => (and_iff_right htype).trans (holds_update_iff hbuilt hsize
      hvalues htype (hbody.2 im him).1 (hbody.2 im him).2 (hbound im him))).trans ?_
    exact forall₂_and

end Record

section Event

variable {p : BinlogEventParser} {m : Meta.TableMeta} {E : List ColumnEncoding} {ev : RowsEvent}

private theorem decodes_iff_recorded (h : ev.Of E p m) (behind : List UInt8)
    (hread : ev.body.Readable E ev.columns)
    (hcount : ev.body.count ≤ M_PARSER_RECORD_CACHE_VOLUMN) :
    Decodes p E ev behind ↔ ev.body.Recorded ev.columns
      (ev.body.records (p.newRecord (ev.bytes E ++ behind) m ev.body.recordType)) := by
  have hparse := parser_of_readable h behind hread hcount
  constructor
  · rintro ⟨records, hparse', hrecorded⟩
    cases hparse.symm.trans hparse'
    exact hrecorded
  · intro hrecorded
    exact ⟨_, hparse, hrecorded⟩

/-- An event with readable images is decoded to its rows just when their records end within their
    memory and no update changes its row or loses an old value. -/
theorem decodes_iff_of_readable (h : ev.Of E p m) (hbuilt : Built m) (hvalues : ValuesFit m E)
    (behind : List UInt8) (hread : ev.body.Readable E ev.columns)
    (hcount : ev.body.count ≤ M_PARSER_RECORD_CACHE_VOLUMN) (hsize : fixedSize m.types < 2 ^ 16)
    (hbound : ev.body.EndsWithin m (2 ^ 32 + 45)) :
    Decodes p E ev behind ↔
      ev.body.EndsWithin m (recordRoom (ev.size E)) ∧ ev.body.Kept m ev.columns := by
  have hiff := recorded_records_iff (p.newRecord (ev.bytes E ++ behind) m ev.body.recordType) hbuilt
    hsize hvalues rfl rfl h.body hbound
  rw [newRecord_room] at hiff
  exact (decodes_iff_recorded h behind hread hcount).trans hiff

/-- What is set in the records of an event of single images, when they show the rows. -/
theorem showsNew_of_recorded {columns : List UInt8} {rows : List Image} {records : List ParsedRow}
    {type : RecordType} (htype : type = .R_INSERT ∨ type = .R_DELETE) (hbuilt : Built m)
    (hsize : fixedSize m.types < 2 ^ 16) (hvalues : ValuesFit m E)
    (hof : ∀ im ∈ rows, im.Of E (bit columns))
    (hmade : ∀ r ∈ records, r.meta' = m ∧ r.olds = none ∧ r.Bounded)
    (hrecorded : List.Forall₂ (fun im r =>
      r.type = type ∧ r.Holds (ShowsImage r.meta' (bit columns) im)) rows records) :
    List.Forall₂ (fun im r => r.type = type ∧ ShowsNew E (bit columns) im r) rows records := by
  induction hrecorded with
  | nil => exact .nil
  | @cons im r rows records hr hrest ih =>
    rw [List.forall_mem_cons] at hof hmade
    obtain ⟨⟨rfl, holds, hbounded⟩, hmade⟩ := hmade
    refine .cons ⟨hr.1, ?_⟩ (ih hof.2 hmade)
    exact hr.2.showsNew hbuilt hsize (hr.1 ▸ htype) holds hbounded hvalues hof.1.valid

theorem RowsOf.made {record : ParsedRow} {header : RowsHeader} {last : Nat} {data : List UInt8}
    {records : List ParsedRow} (h : RowsOf (p.parseOneImage record header) last data records) :
    ∀ r ∈ records, r.meta' = record.meta' ∧ r.olds = record.olds := by
  induction h with
  | done hend => simp
  | next hmore hrow hwithin hrest ih =>
    obtain ⟨row, -, rfl⟩ := parseOneImage_eq_ok.mp hrow
    exact List.forall_mem_cons.mpr ⟨⟨rfl, rfl⟩, ih⟩

/-- An event that decodes is readable, and has not too many rows. -/
theorem readable_of_decodes (h : ev.Of E p m) (hbuilt : Built m) (hvalues : ValuesFit m E)
    (behind : List UInt8) (hsize : fixedSize m.types < 2 ^ 16)
    (hupdate : ev.body.isUpdate = true → ev.body.Readable E ev.columns)
    (hbounded : RecordsBounded p E ev behind) (hdecodes : Decodes p E ev behind) :
    ev.body.Readable E ev.columns ∧ ev.body.count ≤ M_PARSER_RECORD_CACHE_VOLUMN := by
  obtain ⟨records, hparse, hrecorded⟩ := hdecodes
  have hall := hbounded _ _ hparse
  have hrows : RowsOf (ev.body.parseRow p (p.newRecord (ev.bytes E ++ behind) m ev.body.recordType)
        (ev.header E (ev.checksum ++ behind))) (ev.checksum ++ behind).length
        (ev.body.bytes E ++ (ev.checksum ++ behind)) records ∧
      records.length ≤ M_PARSER_RECORD_CACHE_VOLUMN := by
    rw [parser_bytes h] at hparse
    obtain ⟨result, hresult, hparse⟩ := Exec.of_bind hparse
    cases hparse
    exact (parseRows_eq_ok (parseRow_ne_OK _ _ _) _).mp hresult
  have hbody := h.body
  have hbitmap := bitmap_append h.columns (ev.body.updatedColumns ++
    (ev.body.bytes E ++ (ev.checksum ++ behind)))
  cases hev : ev.body with
  | write rows =>
    rw [hev] at hbody hrecorded hrows
    have hshown := showsNew_of_recorded (.inl rfl) hbuilt hsize hvalues hbody
      (fun r hr => ⟨(hrows.1.made r hr).1, (hrows.1.made r hr).2, hall r hr⟩) hrecorded
    exact (rowsOf_images_iff .R_INSERT (p.newRecord (ev.bytes E ++ behind) m .R_INSERT)
      (ev.header E (ev.checksum ++ behind)) (ev.checksum ++ behind) rfl h.table h.columnCount.1
      hbitmap hbody).mp ⟨records, hrows.1, hrows.2, hshown⟩
  | delete rows =>
    rw [hev] at hbody hrecorded hrows
    have hshown := showsNew_of_recorded (.inr rfl) hbuilt hsize hvalues hbody
      (fun r hr => ⟨(hrows.1.made r hr).1, (hrows.1.made r hr).2, hall r hr⟩) hrecorded
    exact (rowsOf_images_iff .R_DELETE (p.newRecord (ev.bytes E ++ behind) m .R_DELETE)
      (ev.header E (ev.checksum ++ behind)) (ev.checksum ++ behind) rfl h.table h.columnCount.1
      hbitmap hbody).mp ⟨records, hrows.1, hrows.2, hshown⟩
  | update updated rows =>
    have hread := hupdate (by simp [hev, RowsBody.isUpdate])
    have hmade := rowsOf_records h behind hread
    obtain ⟨hrows, hplaces⟩ := hrows
    cases hmade.unique hrows
    rw [hev] at hread hplaces
    exact ⟨hread, by simpa [RowsBody.count, RowsBody.records] using hplaces⟩

/-- Readable images are set in the records as they are, so that records that end below 4 GiB have
    images that do. -/
theorem endsWithin_of_bounded (h : ev.Of E p m) (behind : List UInt8)
    (hread : ev.body.Readable E ev.columns)
    (hcount : ev.body.count ≤ M_PARSER_RECORD_CACHE_VOLUMN)
    (hbounded : RecordsBounded p E ev behind) : ev.body.EndsWithin m (2 ^ 32 + 45) := by
  have hall := hbounded _ _ (parser_of_readable h behind hread hcount)
  have hle : ∀ {n : Nat}, n ≤ 2 ^ 32 → n ≤ 2 ^ 32 + 45 := fun h => h.trans (by omega)
  cases hev : ev.body with
  | write rows | delete rows =>
    simp only [hev, RowsBody.records, List.forall_mem_map] at hall
    exact fun im him => hle (hall im him).2
  | update updated rows =>
    simp only [hev, RowsBody.records, List.forall_mem_map] at hall
    exact fun im him => hle (hall im him).2

/-- The parser makes of a rows event records of its rows if the images are readable, there are places
    for the records, each ends within its memory, and no update changes its row or loses an old value.
    Only then it does, unless it is an update with an image that is not readable: there the first
    image, misread, may come to the second one. -/
theorem decodes_iff (h : ev.Of E p m) (hbuilt : Built m) (hvalues : ValuesFit m E)
    (behind : List UInt8) :
    (ev.body.Readable E ev.columns ∧ ev.body.count ≤ M_PARSER_RECORD_CACHE_VOLUMN ∧
      fixedSize m.types < 2 ^ 16 ∧ ev.body.EndsWithin m (recordRoom (ev.size E)) ∧
      ev.body.Kept m ev.columns → Decodes p E ev behind) ∧
    (fixedSize m.types < 2 ^ 16 → (ev.body.isUpdate = true → ev.body.Readable E ev.columns) →
      RecordsBounded p E ev behind → Decodes p E ev behind →
        ev.body.Readable E ev.columns ∧ ev.body.count ≤ M_PARSER_RECORD_CACHE_VOLUMN ∧
        ev.body.EndsWithin m (recordRoom (ev.size E)) ∧ ev.body.Kept m ev.columns) := by
  constructor
  · rintro ⟨hread, hcount, hsize, hends, hkept⟩
    have hroom : recordRoom (ev.size E) ≤ 2 ^ 32 + 45 := by
      unfold recordRoom recordHeadSize
      omega
    exact (decodes_iff_of_readable h hbuilt hvalues behind hread hcount hsize
      (hends.mono hroom)).mpr ⟨hends, hkept⟩
  · intro hsize hupdate hbounded hdecodes
    obtain ⟨hread, hcount⟩ :=
      readable_of_decodes h hbuilt hvalues behind hsize hupdate hbounded hdecodes
    exact ⟨hread, hcount, (decodes_iff_of_readable h hbuilt hvalues behind hread hcount hsize
      (endsWithin_of_bounded h behind hread hcount hbounded)).mp hdecodes⟩

end Event

/-! ## Tables of small integers -/

/-- An event of version 2 for this table. -/
def tinyEvent (columns : List UInt8) (body : RowsBody) : RowsEvent where
  tableId := 108
  columns := columns
  body := body

theorem tinyEvent_of {columns : List UInt8} {body : RowsBody} (hcolumns : columns.length = 1)
    (hbody : body.Of tinyEncodings columns) :
    (tinyEvent columns body).Of tinyEncodings tinyParser tinyTable where
  commonHeader := rfl
  postHeader := by cases body <;> rfl
  postHeaderLen := by simp [tinyEvent]
  extra := by simp [tinyEvent]
  tableId := rfl
  tableId_lt := by simp [tinyEvent, RowsEvent.idWidth, ROWS_HEADER_LEN_V2]
  eventOffset := by simp [tinyEvent]
  lookup := rfl
  table := tableMatches_tiny
  columnCount := by decide
  columns := hcolumns
  body := hbody
  checksum := rfl

theorem image_of_tiny {columns nulls : List UInt8} {a b : Option (List UInt8)}
    (hnulls : nulls.length = (rank (bit columns) 2 + 7) / 8)
    (hvalid : (a.map List.length).getD 1 = 1 ∧ (b.map List.length).getD 1 = 1)
    (habsent : ∀ i, i < 2 → bit columns i = false → [a, b].getD i none = none)
    (hnull : ∀ i, i < 2 → bit columns i = true →
      bit nulls (rank (bit columns) i) = ([a, b].getD i none).isNone) :
    (Image.mk nulls [a, b]).Of tinyEncodings (bit columns) where
  length_nulls := hnulls
  valid := .cons (by rintro v rfl; exact hvalid.1) (.cons (by rintro v rfl; exact hvalid.2) .nil)
  absent := habsent
  null := hnull

theorem valuesFit_tiny : ValuesFit tinyTable tinyEncodings := by
  have hvalue : ∀ v, tinyEncoding.Valid v → ValueFits .T_INT8 (some v) := by
    rintro v hv _ ⟨⟩ _
    exact hv
  exact .cons hvalue (.cons hvalue .nil)

theorem built_tinyTable : Built tinyTable := built_buildColumnOffsetList _

def tinyInsert : RowsEvent :=
  tinyEvent [3] (.write [⟨[0], [some [1], some [2]]⟩, ⟨[2], [some [3], none]⟩])

/-- Two updates with the column `a` in the image after them, which do not change it. -/
def keptUpdate : RowsEvent :=
  tinyEvent [3] (.update [1] [(⟨[0], [some [1], some [2]]⟩, ⟨[0], [some [1], none]⟩),
    (⟨[2], [some [3], none]⟩, ⟨[0], [some [3], none]⟩)])

/-- An insert of two rows with the columns that the table has, and an update that keeps its columns.
    -/
theorem decodes_tiny : Decodes tinyParser tinyEncodings tinyInsert [] ∧
    Decodes tinyParser tinyEncodings keptUpdate [] := by
  constructor
  · have hof : tinyInsert.Of tinyEncodings tinyParser tinyTable := by
      apply tinyEvent_of rfl
      simp only [RowsBody.Of, List.forall_mem_cons, List.not_mem_nil, false_imp_iff, implies_true,
        and_true]
      constructor
      · exact image_of_tiny (by decide) (by decide) (by decide) (by decide)
      · exact image_of_tiny (by decide) (by decide) (by decide) (by decide)
    have hread : tinyInsert.body.Readable tinyEncodings tinyInsert.columns :=
      fun im _ => Image.readable_of_all (by decide) im
    have hends : tinyInsert.body.EndsWithin tinyTable (recordRoom (tinyInsert.size tinyEncodings)) := by
      decide
    exact (decodes_iff hof built_tinyTable valuesFit_tiny []).1
      ⟨hread, by decide, by decide, hends, trivial⟩
  · have hof : keptUpdate.Of tinyEncodings tinyParser tinyTable := by
      apply tinyEvent_of rfl
      simp only [RowsBody.Of, List.forall_mem_cons, List.not_mem_nil, false_imp_iff, implies_true,
        and_true]
      refine ⟨rfl, ⟨?_, ?_⟩, ?_, ?_⟩ <;>
        exact image_of_tiny (by decide) (by decide) (by decide) (by decide)
    have hread : keptUpdate.body.Readable tinyEncodings keptUpdate.columns := by
      decide
    have hends : keptUpdate.body.EndsWithin tinyTable (recordRoom (keptUpdate.size tinyEncodings)) := by
      decide
    have hkept : keptUpdate.body.Kept tinyTable keptUpdate.columns := by
      intro im him
      simp only [List.mem_cons, List.not_mem_nil, or_false] at him
      constructor
      · intro i t ht hi
        match i, ht with
        | 0, _ => obtain rfl | rfl := him <;> rfl
        | 1, _ => cases hi
      · intro i t v ht _ _
        refine ⟨fun h => (nomatch h), fun v' _ hvar => ?_⟩
        -- both columns are fixed
        match i, ht with
        | 0, rfl => cases hvar
        | 1, rfl => cases hvar
    exact (decodes_iff hof built_tinyTable valuesFit_tiny []).1
      ⟨hread, by decide, by decide, hends, hkept⟩

def partialInsert : RowsEvent :=
  tinyEvent [2] (.write [⟨[1], [none, none]⟩, ⟨[0], [none, some [2]]⟩])

def tinyUpdate : RowsEvent :=
  tinyEvent [3] (.update [3] [(⟨[0], [some [1], some [2]]⟩, ⟨[0], [some [1], some [3]]⟩)])

/-- Of the insert the parser makes a row with 0 first; of the update, a record with 2 as the new
    value and 3 as the old one. -/
theorem not_decodes_tiny :
    (partialInsert.Of tinyEncodings tinyParser tinyTable ∧
      ¬ Decodes tinyParser tinyEncodings partialInsert []) ∧
    (tinyUpdate.Of tinyEncodings tinyParser tinyTable ∧
      ¬ Decodes tinyParser tinyEncodings tinyUpdate []) := by
  have hsize : fixedSize tinyTable.types < 2 ^ 16 := by decide
  constructor
  · have hof : partialInsert.Of tinyEncodings tinyParser tinyTable := by
      apply tinyEvent_of rfl
      simp only [RowsBody.Of, List.forall_mem_cons, List.not_mem_nil, false_imp_iff, implies_true,
        and_true]
      constructor
      · exact image_of_tiny (by decide) (by decide) (by decide) (by decide)
      · exact image_of_tiny (by decide) (by decide) (by decide) (by decide)
    refine ⟨hof, ?_⟩
    -- the null map is asked for column 1, so the map of the second row is taken for a value
    have hparse : tinyParser.parser (partialInsert.bytes tinyEncodings ++ [])
        (partialInsert.size tinyEncodings) = .ok (some (.OK,
          [{ tinyParser.newRecord (partialInsert.bytes tinyEncodings ++ []) tinyTable .R_INSERT with
              row := [none, some [0]] },
            { tinyParser.newRecord (partialInsert.bytes tinyEncodings ++ []) tinyTable .R_INSERT with
              row := [none, none] }])) := rfl
    have hbounded : RecordsBounded tinyParser tinyEncodings partialInsert [] := by
      intro status records hparse'
      cases hparse.symm.trans hparse'
      simp only [List.forall_mem_cons, List.not_mem_nil, false_imp_iff, implies_true, and_true]
      refine ⟨⟨.cons (by rintro _ ⟨⟩) (.cons (by rintro _ ⟨⟩ _; rfl) .nil), ?_⟩,
        ⟨.cons (by rintro _ ⟨⟩) (.cons (by rintro _ ⟨⟩) .nil), ?_⟩⟩
      · show recordEnd tinyTable [none, some [0]] ≤ 2 ^ 32
        decide
      · show recordEnd tinyTable [none, none] ≤ 2 ^ 32
        decide
    intro hdecodes
    obtain ⟨hread, -⟩ := readable_of_decodes hof built_tinyTable valuesFit_tiny [] hsize
      (fun h => by cases h) hbounded hdecodes
    have hbits := (hread _ List.mem_cons_self).2 1 (by decide) (by decide)
    cases hbits
  · have hof : tinyUpdate.Of tinyEncodings tinyParser tinyTable := by
      apply tinyEvent_of rfl
      simp only [RowsBody.Of, List.forall_mem_cons, List.not_mem_nil, false_imp_iff, implies_true,
        and_true]
      refine ⟨rfl, ?_, ?_⟩
      · exact image_of_tiny (by decide) (by decide) (by decide) (by decide)
      · exact image_of_tiny (by decide) (by decide) (by decide) (by decide)
    refine ⟨hof, ?_⟩
    have hread : tinyUpdate.body.Readable tinyEncodings tinyUpdate.columns := by
      decide
    have hbound : tinyUpdate.body.EndsWithin tinyTable (2 ^ 32 + 45) := by
      decide
    rw [decodes_iff_of_readable hof built_tinyTable valuesFit_tiny [] hread (by decide) hsize hbound]
    rintro ⟨-, hkept⟩
    have hsame := (hkept _ List.mem_cons_self).same 1 .T_INT8 rfl rfl
    cases hsame

end DBStream.Native.DATA_SOURCE
