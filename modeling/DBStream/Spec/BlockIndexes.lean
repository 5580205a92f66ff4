import DBStream.Native.BlockIndex
import DBStream.Spec.IndexEntries
import DBStream.Spec.RedoFaults

/-!
# What the indexes of a block hold

The index of a block is `appendingIndex`, and in every run it is the one that the rows of its table make,
one after the other under their numbers in the block.
-/

namespace DBStream.Native

namespace AppendingIndex

open AppendingBlock (Op addRecords keyedRows Run)

variable {F : FloatOps} {meta' : Meta.TableMeta} {index : AppendingIndex}
  {data : List (List UInt8 × Nat)}

/-- The rows of the records with these bytes. -/
def loadRows (meta' : Meta.TableMeta) (data : List (List UInt8 × Nat)) : Exec (List (Row × Nat)) :=
  data.mapM fun x => do return (← loadRow meta' x.1, x.2)

/-- The index of the rows of some records. -/
structure IndexOf (F : FloatOps) (key : (inBlock F).KeyMeta) (data : List (List UInt8 × Nat))
    (index : (inBlock F).Index) : Prop where
  tableMeta : index.1 = key.1
  rows : ∃ rows, loadRows key.1 data = .ok rows ∧
    (create key.2 >>= fun new => appendAll F new rows) = .ok index.2

variable {key : (inBlock F).KeyMeta} {i i' : (inBlock F).Index} {t t' : TableData (inBlock F)}

theorem indexOf_create (h : (inBlock F).create key = .ok i) : IndexOf F key [] i := by
  obtain ⟨new, hnew, hret⟩ := Exec.of_bind h
  cases hret
  exact ⟨rfl, [], rfl, by rw [hnew]; rfl⟩

private theorem loadRows_snoc {rows : List (Row × Nat)} {bytes : List UInt8} {n : Nat} {r : Row}
    (h : loadRows meta' data = .ok rows) (hr : loadRow meta' bytes = .ok r) :
    loadRows meta' (data ++ [(bytes, n)]) = .ok (rows ++ [(r, n)]) := by
  unfold loadRows at h ⊢
  rw [List.mapM_append, h, Exec.ok_bind, List.mapM_cons, hr]
  rfl

private theorem appendAll_snoc {rows : List (Row × Nat)} {new : AppendingIndex} {r : Row} {n : Nat}
    (h : appendAll F new rows = .ok index) :
    appendAll F new (rows ++ [(r, n)]) = index.append F r n := by
  unfold appendAll at h ⊢
  rw [List.foldlM_append, h, Exec.ok_bind, List.foldlM_cons]
  cases index.append F r n <;> rfl

theorem IndexOf.append {bytes : List UInt8} {n : Nat} (h : IndexOf F key data i)
    (happ : (inBlock F).append i bytes n = .ok i') : IndexOf F key (data ++ [(bytes, n)]) i' := by
  obtain ⟨htable, rows, hrows, hall⟩ := h
  obtain ⟨r, hr, happ⟩ := Exec.of_bind happ
  obtain ⟨index, hindex, hret⟩ := Exec.of_bind happ
  cases hret
  obtain ⟨new, hnew, hall⟩ := Exec.of_bind hall
  refine ⟨htable, rows ++ [(r, n)], loadRows_snoc hrows (htable ▸ hr), ?_⟩
  rw [hnew, Exec.ok_bind, appendAll_snoc hall, hindex]

/-! ## The indexes of a table -/

/-- Every index of a table is that of the rows. -/
structure Indexes (F : FloatOps) (m : TableMeta (inBlock F)) (data : List (List UInt8 × Nat))
    (t : TableData (inBlock F)) : Prop where
  primaryKey : ∀ key ∈ m.m_primaryKey, ∃ i, t.primaryKey = some i ∧ IndexOf F key data i
  uniqueKeys : List.Forall₂ (fun key i => IndexOf F key data i) m.m_uniqueKeys t.uniqueKeys

theorem forall₂_mapM {α β : Type} {f : α → Exec β} {P : α → β → Prop} {l : List α} {l' : List β}
    (hf : ∀ a b, f a = .ok b → P a b) (h : l.mapM f = .ok l') : List.Forall₂ P l l' := by
  induction l generalizing l' with
  | nil =>
    cases h
    exact .nil
  | cons a l ih =>
    rw [List.mapM_cons] at h
    obtain ⟨b, hb, h⟩ := Exec.of_bind h
    obtain ⟨rest, hrest, hret⟩ := Exec.of_bind h
    cases hret
    exact .cons (hf a b hb) (ih hrest)

private theorem indexes_init {m : TableMeta (inBlock F)} (h : TableData.init m = .ok t) :
    Indexes F m [] t := by
  obtain ⟨primaryKey, hprimary, h⟩ := Exec.of_bind h
  obtain ⟨uniqueKeys, hunique, hret⟩ := Exec.of_bind h
  cases hret
  refine ⟨fun key hkey => ?_, forall₂_mapM (fun key i hi => indexOf_create hi) hunique⟩
  rw [Option.mem_def.mp hkey] at hprimary
  obtain ⟨i, hi, hret⟩ := Exec.of_bind hprimary
  cases hret
  exact ⟨i, rfl, indexOf_create hi⟩

theorem mapM_forall₂ {α β : Type} {f : β → Exec β} {P Q : α → β → Prop} {l : List α}
    {l' r : List β} (hf : ∀ a b c, P a b → f b = .ok c → Q a c) (h : List.Forall₂ P l l')
    (hr : l'.mapM f = .ok r) : List.Forall₂ Q l r := by
  induction h generalizing r with
  | nil =>
    cases hr
    exact .nil
  | cons hp _ ih =>
    rw [List.mapM_cons] at hr
    obtain ⟨c, hc, hr⟩ := Exec.of_bind hr
    obtain ⟨rest, hrest, hret⟩ := Exec.of_bind hr
    cases hret
    exact .cons (hf _ _ c hp hc) (ih hrest)

theorem Indexes.addRecord {m : TableMeta (inBlock F)} {bytes : List UInt8} {n : Nat}
    (h : Indexes F m data t) (hadd : t.addRecord bytes n = .ok t') :
    Indexes F m (data ++ [(bytes, n)]) t' := by
  obtain ⟨primaryKey, hprimary, hadd⟩ := Exec.of_bind hadd
  obtain ⟨uniqueKeys, hunique, hret⟩ := Exec.of_bind hadd
  cases hret
  refine ⟨fun key hkey => ?_, mapM_forall₂ (fun key i i' hi hi' => hi.append hi') h.uniqueKeys hunique⟩
  obtain ⟨i, hi, hindex⟩ := h.primaryKey key hkey
  rw [hi] at hprimary
  obtain ⟨i', hi', hret⟩ := Exec.of_bind hprimary
  cases hret
  exact ⟨i', rfl, hindex.append hi'⟩

theorem Indexes.addRecords {m : TableMeta (inBlock F)} {more : List (List UInt8 × Nat)}
    (h : Indexes F m data t) (hadd : addRecords t more = .ok t') :
    Indexes F m (data ++ more) t' := by
  induction more generalizing data t with
  | nil =>
    cases hadd
    rwa [List.append_nil]
  | cons x more ih =>
    obtain ⟨t₁, hx, hadd⟩ := Exec.of_bind hadd
    have hall := ih (h.addRecord hx) hadd
    rwa [List.append_assoc] at hall

/-- In every run an index of a block is the one that the rows of its table make. -/
theorem indexes_of_run {Γ : MetaDataCollection (inBlock F)}
    {P : AppendingBlock (inBlock F) → Op → AppendingBlockStaus → Prop} {blockId startID bufSize : Nat}
    {flag : BlockFlag} {flushSize flushPeriod fd : Int} {b : AppendingBlock (inBlock F)}
    {acc : List Record} {k : Nat} {m : TableMeta (inBlock F)}
    (hrun : Run Γ P ((AppendingBlock.create blockId flag bufSize flushSize flushPeriod
      startID).withRedoFd fd) b acc)
    (hfind : b.m_tableDatas.find k = some t) (hmeta : t.tableMeta = some m) :
    Indexes F m (keyedRows Γ startID k acc) t := by
  obtain ⟨t₀, t₁, hinit, hadd, hprimary, hunique⟩ := hrun.indexesOf.1 k t m hfind hmeta
  have hindexes := (indexes_init hinit).addRecords hadd
  exact ⟨fun key hkey => hprimary ▸ hindexes.primaryKey key hkey, hunique ▸ hindexes.uniqueKeys⟩

end AppendingIndex

end DBStream.Native
