import DBStream.ForStd.SortedMap
import DBStream.Native.Record

/-!
# Pages, positions, flags and table metadata

The parts of `database/block.h`, `database/page.h` and `meta/metaData.h` that the
appending and the solid block share.

The appending block only calls three operations of an index: its constructor,
`append`, and the conversion to a page.  They are a parameter of the block model
(`IndexImpl`), so that what is proved about blocks holds for every key type.
-/

namespace DBStream.Native

/-! ## Record positions -/

namespace RecordPosition

/-- `setRecordPosition`: page id and in-page offset packed into a `uint32_t`. -/
def set (pageId offsetInPage : Nat) : Nat := (pageId * 2 ^ 20 + offsetInPage) % 2 ^ 32

/-- The macro `pageId(p)`. -/
def pageId (p : Nat) : Nat := p / 2 ^ 20

/-- The macro `offsetInPage(p)`. -/
def offsetInPage (p : Nat) : Nat := p % 2 ^ 20

/-- The page ids and offsets the packing has room for. -/
def Fits (page offset : Nat) : Prop := page < 2 ^ 12 ∧ offset < 2 ^ 20

instance (page offset : Nat) : Decidable (Fits page offset) :=
  inferInstanceAs (Decidable (_ ∧ _))

theorem pageId_set {page offset : Nat} (h : Fits page offset) : pageId (set page offset) = page := by
  obtain ⟨hp, ho⟩ := h
  simp only [pageId, set]
  omega

theorem offsetInPage_set {page offset : Nat} (h : Fits page offset) :
    offsetInPage (set page offset) = offset := by
  obtain ⟨hp, ho⟩ := h
  simp only [offsetInPage, set]
  omega

end RecordPosition

/-! ## Pages -/

/-- `struct page`.  `pageData` holds the used bytes, so `pageUsedSize` is its length;
    `lru` stands for the three list pointers in front of `_ref`. -/
structure Page where
  pageId : Nat
  pageSize : Nat
  crc : Nat
  lru : Nat
  pageData : List UInt8
  deriving DecidableEq

namespace Page

def pageUsedSize (p : Page) : Nat := p.pageData.length

/-- `database::allocPage`. -/
def alloc (size : Nat) : Page := { pageId := 0, pageSize := size, crc := 0, lru := 0, pageData := [] }

/-- Copy bytes behind the used part. -/
def write (p : Page) (bs : List UInt8) : Page := { p with pageData := p.pageData ++ bs }

@[simp] theorem write_pageData (p : Page) (bs : List UInt8) :
    (p.write bs).pageData = p.pageData ++ bs := rfl

@[simp] theorem write_pageSize (p : Page) (bs : List UInt8) :
    (p.write bs).pageSize = p.pageSize := rfl

end Page

/-! ## Block flags -/

/-- The bits of `block::m_flag`. -/
structure BlockFlag where
  appending : Bool := false
  solid : Bool := false
  finished : Bool := false
  flushed : Bool := false
  hasRedo : Bool := false
  compress : Bool := false
  multiTable : Bool := false
  deriving DecidableEq

/-- The flag word, `BLOCK_FLAG_APPENDING` being bit 0. -/
def BlockFlag.toNat (f : BlockFlag) : Nat :=
  f.appending.toNat + 2 * f.solid.toNat + 4 * f.finished.toNat + 8 * f.flushed.toNat +
    16 * f.hasRedo.toNat + 32 * f.compress.toNat + 64 * f.multiTable.toNat

/-- The flags set in a flag word. -/
def BlockFlag.ofNat (n : Nat) : BlockFlag where
  appending := n.testBit 0
  solid := n.testBit 1
  finished := n.testBit 2
  flushed := n.testBit 3
  hasRedo := n.testBit 4
  compress := n.testBit 5
  multiTable := n.testBit 6

theorem BlockFlag.ofNat_toNat (f : BlockFlag) : BlockFlag.ofNat f.toNat = f := by
  obtain ⟨a, b, c, d, e, g, h⟩ := f
  revert a b c d e g h
  decide

/-! ## Tables and their indexes -/

/-- The operations of an index that the block model calls.

    `create` is the constructor of `appendingIndex`, `append` adds the keys of a row under the
    record's number in the block, `solidPage` is `createSolidIndexPage`: the bytes of the page, or
    `none` for a key type its switch has no case for. -/
structure IndexImpl where
  KeyMeta : Type
  Index : Type
  create : KeyMeta → Exec Index
  append : Index → List UInt8 → Nat → Exec Index
  solidPage : KeyMeta → Index → Option (List UInt8)

/-- The part of `META::tableMeta` that a block reads. -/
structure TableMeta (I : IndexImpl) where
  m_id : Nat
  m_primaryKey : Option I.KeyMeta
  m_uniqueKeys : List I.KeyMeta

namespace TableMeta

variable {I : IndexImpl}

/-- The keys of a table in the order in which their pages are laid out. -/
def keys (m : TableMeta I) : List I.KeyMeta := m.m_primaryKey.toList ++ m.m_uniqueKeys

/-- `(m_primaryKey != nullptr ? 1 : 0) + m_uniqueKeysCount`. -/
def indexCount (m : TableMeta I) : Nat :=
  (if m.m_primaryKey.isSome then 1 else 0) + m.m_uniqueKeys.length

end TableMeta

/-- `metaDataBaseCollection`: table metas by id.  Ids are handed out from `1 << 16` on, and the
    collection answers with the meta put under the id asked for. -/
structure MetaDataCollection (I : IndexImpl) where
  get : Nat → Option (TableMeta I)
  get_id : ∀ i m, get i = some m → m.m_id = i
  get_zero : get 0 = none

/-- The meta of the table a record belongs to; `nullptr` for records that are not row changes. -/
def MetaDataCollection.metaOf {I : IndexImpl} (Γ : MetaDataCollection I) (d : List UInt8) :
    Option (TableMeta I) :=
  if RecordHead.isDML d then Γ.get (DMLRecord.tableId d) else none

theorem MetaDataCollection.metaOf_id_ne_zero {I : IndexImpl} (Γ : MetaDataCollection I)
    {d : List UInt8} {m : TableMeta I} (h : Γ.metaOf d = some m) : m.m_id ≠ 0 := by
  simp only [metaOf] at h
  split at h
  · have hid := Γ.get_id _ _ h
    intro h0
    rw [← hid, h0, Γ.get_zero] at h
    cases h
  · cases h

theorem MetaDataCollection.metaOf_prepare {I : IndexImpl} (Γ : MetaDataCollection I) (r : Record)
    (txnId recordId : Nat) : Γ.metaOf (r.prepare txnId recordId).data = Γ.metaOf r.data := by
  have hdml : RecordHead.isDML (r.prepare txnId recordId).data = RecordHead.isDML r.data := by
    rw [RecordHead.isDML, r.type_prepare, RecordHead.isDML]
  rw [metaOf, metaOf, hdml, r.tableId_prepare]

end DBStream.Native
