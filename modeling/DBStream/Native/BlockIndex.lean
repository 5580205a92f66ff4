import DBStream.Native.RecordRow

/-!
# The indexes of a block

`appendingIndex` as the index of `appendingBlock`.  `copyRecord` loads the record it has copied by the
meta of its table, and that record goes to the indexes; behind its bytes the memory reads as zero here.
-/

namespace DBStream.Native

namespace AppendingIndex

/-- The row of the record with these bytes. -/
def loadRow (meta' : Meta.TableMeta) (data : List UInt8) : Exec Row := do
  let dml ← DMLRecord.load (fun i => data.getD i 0) meta'
  return Row.ofRecord dml

/-- The index of a block.  A key comes with the meta of its table; a page that is not made aborts. -/
def inBlock (F : FloatOps) : IndexImpl where
  KeyMeta := Meta.TableMeta × UnionKeyMeta
  Index := Meta.TableMeta × AppendingIndex
  create key := do return (key.1, ← create key.2)
  append index data id := do return (index.1, ← index.2.append F (← loadRow index.1 data) id)
  solidPage _ index := index.2.createSolidIndexPage.toOption

end AppendingIndex

end DBStream.Native
