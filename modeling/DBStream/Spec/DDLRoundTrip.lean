import DBStream.Native.DDLRecord

/-!
# Statements are read back

What `create` wrote is read back by `load` where the database name has at most 254 bytes and the
query is not empty: the byte in front of the name holds its length with the NUL, which is 0 for 255
bytes, and for an empty query the byte behind which a NUL may be missing is looked for 4 GiB
further on.
-/

namespace DBStream.Native

open DDLRecord

variable {mem : RawMemory} {charset : Option CString} {sqlMode : UInt64} {database : Option CString}
  {query : List UInt8} {room querySize : Nat}

/-! ## What is to be read -/

def terminated (text : List UInt8) : List UInt8 :=
  if text.getLast? = some 0 then text else text ++ [0]

/-- The database name with its NUL, if there is one. -/
def nameField (database : Option CString) : List UInt8 :=
  match database with
  | none => []
  | some name => if name.1 = [] then [] else name.1 ++ [0]

/-- The id of the charset with the name, or that of `ascii`. -/
def namedCharset (charset : Option CString) : Nat :=
  let row := charset.bind fun name =>
    sortedCharsetInfo.find? fun row => nameString row.1 = name.1.map tolower
  ((row.map Prod.snd).getD .ascii).id

namespace DDLRecord

/-- The `databaseSize` bytes at `database`; none of them are no name. -/
def databaseText (r : DDLRecord) : Exec (List UInt8) := do
  return r.mem.read (← deref r.database) (← r.databaseSize)

def ddlText (r : DDLRecord) : List UInt8 := r.mem.read r.ddl r.ddlSize

end DDLRecord

/-- `create` succeeds and `load` gives back what it was called with, in a record that is not larger
    than what was allocated. -/
def DDLRoundTrips (mem : RawMemory) (charset : Option CString) (sqlMode : UInt64)
    (database : Option CString) (query : List UInt8) : Prop :=
  ∃ r, BinlogEventParser.ddl mem charset sqlMode database query = .ok r ∧
    (DDLRecord.load r.mem).sqlMode = sqlMode.toNat ∧
    (DDLRecord.load r.mem).charsetId = namedCharset charset ∧
    (DDLRecord.load r.mem).databaseText = .ok (nameField database) ∧
    (DDLRecord.load r.mem).ddlText = terminated query ∧
    r.size ≤ BinlogEventParser.ddlRoom database query

/-! ## What is written -/

theorem store_eq_ok {p : Nat} {d : List UInt8} {mem' : RawMemory} :
    store room mem p d = .ok mem' ↔ p + d.length ≤ room ∧ mem.write p d = mem' := by
  unfold store
  split
  · rename_i hle
    simp [hle]
  · rename_i hgt
    simp [hgt]

theorem store_of_le {p : Nat} {d : List UInt8} (h : p + d.length ≤ room) :
    store room mem p d = .ok (mem.write p d) := if_pos h

theorem init_eq_ok {mem' : RawMemory} :
    init room mem = .ok mem' ↔ recordHeadSize ≤ room ∧ DMLRecord.init mem = mem' := by
  unfold init
  split
  · rename_i hle
    simp [hle]
  · rename_i hgt
    simp [hgt]

theorem init_headSize (mem : RawMemory) : (DMLRecord.init mem).readWord 1 5 = recordHeadSize := by
  have hsize : recordHeadSize < 256 ^ 1 := by decide
  unfold DMLRecord.init
  simp (disch := omega) only [RawMemory.readWord_writeWord_of_disjoint]
  exact RawMemory.readWord_writeWord_self hsize

/-- The size of the name as it is stored. -/
def storedNameSize (database : Option CString) : Nat := (nameField database).length % 256

theorem storedNameSize_le (database : Option CString) :
    storedNameSize database ≤ (nameField database).length := Nat.mod_le _ _

/-- The head, the mode, the charset and the name. -/
def ddlFront (mem : RawMemory) (charset : Option CString) (sqlMode : UInt64)
    (database : Option CString) : RawMemory :=
  ((((DMLRecord.init mem).write 38 (LE.bytes 8 sqlMode.toNat)).write 46
    (LE.bytes 2 (charsetOf charset))).write 48 (LE.bytes 1 (nameField database).length)).write 49
      ((nameField database).take (storedNameSize database))

/-- When the name of the database fits, and the memory with it. -/
theorem storeDatabase_eq_ok {mem' : RawMemory} :
    storeDatabase room mem 49 database = .ok mem' ↔ 49 + storedNameSize database ≤ room ∧
      (mem.write 48 (LE.bytes 1 (nameField database).length)).write 49
        ((nameField database).take (storedNameSize database)) = mem' := by
  have hnone (field : List UInt8) (hfield : field = []) :
      store room mem 48 [0] = .ok mem' ↔ 49 + field.length % 256 ≤ room ∧
        (mem.write 48 (LE.bytes 1 field.length)).write 49 (field.take (field.length % 256)) =
          mem' := by
    rw [store_eq_ok, hfield]
    simp only [List.length_nil, Nat.zero_mod, List.take_nil, RawMemory.write_nil]
    rfl
  cases database with
  | none => exact hnone _ rfl
  | some name =>
    by_cases hname : name.1 = []
    · rw [storeDatabase, if_neg (by simp [hname])]
      exact hnone _ (if_pos hname)
    · have hlen : 0 < name.1.length := List.length_pos_iff.mpr hname
      have hfield : nameField (some name) = name.1 ++ [0] := if_neg hname
      have hsize : storedNameSize (some name) = (name.1.length + 1) % 256 := by
        simp [storedNameSize, hfield]
      have hread (m : RawMemory) : (m.write 48 (LE.bytes 1 (name.1.length + 1))).readWord 1 48 =
          (name.1.length + 1) % 256 := by
        exact RawMemory.readWord_writeWord
      have htake : ((name.1 ++ [0]).take ((name.1.length + 1) % 256)).length =
          (name.1.length + 1) % 256 := by
        have := Nat.mod_le (name.1.length + 1) 256
        simpa using this
      rw [storeDatabase, if_pos hlen, hfield, hsize, Exec.bind_eq_ok]
      constructor
      · intro ⟨m, hstore, hrest⟩
        obtain ⟨_, rfl⟩ := store_eq_ok.mp hstore
        rw [hread, store_eq_ok, htake] at hrest
        rw [List.length_append]
        exact hrest
      · intro ⟨hfit, hmem⟩
        refine ⟨_, store_of_le (by rw [LE.length_bytes]; omega), ?_⟩
        rw [List.length_append] at hmem
        rw [hread, store_eq_ok, htake]
        exact ⟨hfit, hmem⟩

theorem ddlFront_size (mem : RawMemory) (charset : Option CString) (sqlMode : UInt64)
    (database : Option CString) :
    (ddlFront mem charset sqlMode database).readWord 1 48 = storedNameSize database := by
  unfold ddlFront
  rw [RawMemory.readWord_write_of_disjoint (Or.inl (Nat.le_refl 49))]
  exact RawMemory.readWord_writeWord

/-- When the query fits, and the memory with it and the word behind it. -/
theorem storeQuery_eq_ok {r : RawMemory} {p : Nat} (hroom : room < 2 ^ 32)
    (hle : querySize ≤ query.length) (hlt : querySize < 2 ^ 32) :
    storeQuery room mem p query querySize = .ok r ↔
      querySize ≠ 0 ∧ p + (terminated (query.take querySize)).length ≤ room ∧
      (mem.write p (terminated (query.take querySize))).writeWord 4 0
        (p + (terminated (query.take querySize)).length) = r := by
  have hlen : (query.take querySize).length = querySize := by
    rw [List.length_take, Nat.min_eq_left hle]
  rw [storeQuery, Exec.bind_eq_ok]
  by_cases hzero : querySize = 0
  · -- no byte is in front
    constructor
    · intro ⟨m, _, hrest⟩
      rw [byteAt, if_neg (by omega)] at hrest
      exact absurd hrest (by simp [bind, Except.bind])
    · intro hr
      exact absurd hzero hr.1
  obtain ⟨last, hlast⟩ : ∃ last, (query.take querySize).getLast? = some last := by
    cases hl : (query.take querySize).getLast? with
    | none =>
      rw [List.getLast?_eq_none_iff] at hl
      rw [hl] at hlen
      exact absurd hlen.symm hzero
    | some last => exact ⟨last, rfl⟩
  have hread (hfit : p + querySize ≤ room) :
      byteAt room (mem.write p (query.take querySize)) (p + (querySize + (2 ^ 32 - 1)) % 2 ^ 32) =
        .ok last := by
    have hplace : (querySize + (2 ^ 32 - 1)) % 2 ^ 32 = querySize - 1 := by omega
    have hbyte := RawMemory.write_last (m := mem) (p := p) hlast
    rw [hlen] at hbyte
    rw [byteAt, hplace, if_pos (by omega), hbyte]
  by_cases hnul : last = 0
  · have hterm : terminated (query.take querySize) = query.take querySize := by
      rw [terminated, if_pos (by rw [hlast, hnul])]
    rw [hterm, hlen]
    constructor
    · intro ⟨m, hstore, hrest⟩
      obtain ⟨hfit, rfl⟩ := store_eq_ok.mp hstore
      rw [hlen] at hfit
      rw [hread hfit, Exec.ok_bind, if_neg (by simpa using hnul)] at hrest
      exact ⟨hzero, hfit, Except.ok.inj hrest⟩
    · intro ⟨_, hfit, hr⟩
      refine ⟨_, store_of_le (by rw [hlen]; exact hfit), ?_⟩
      rw [hread hfit, Exec.ok_bind, if_neg (by simpa using hnul), ← hr]
      rfl
  · have hterm : terminated (query.take querySize) = query.take querySize ++ [0] := by
      rw [terminated, if_neg (by rw [hlast]; simpa using hnul)]
    have hwrite := RawMemory.write_append mem p (query.take querySize) [0]
    rw [hlen] at hwrite
    rw [hterm, List.length_append, hlen, List.length_singleton, ← hwrite, ← Nat.add_assoc]
    constructor
    · intro ⟨m, hstore, hrest⟩
      obtain ⟨hfit, rfl⟩ := store_eq_ok.mp hstore
      rw [hlen] at hfit
      rw [hread hfit, Exec.ok_bind, if_pos hnul, Exec.bind_eq_ok] at hrest
      obtain ⟨m', hstore', hrest⟩ := hrest
      obtain ⟨hfit', rfl⟩ := store_eq_ok.mp hstore'
      exact ⟨hzero, hfit', Except.ok.inj hrest⟩
    · intro ⟨_, hfit, hr⟩
      refine ⟨_, store_of_le (by rw [hlen]; omega), ?_⟩
      rw [hread (by omega), Exec.ok_bind, if_pos hnul, store_of_le hfit, Exec.ok_bind, ← hr]
      rfl

/-- The memory of a record with the text `T` behind the name. -/
def ddlImage (mem : RawMemory) (charset : Option CString) (sqlMode : UInt64)
    (database : Option CString) (T : List UInt8) : RawMemory :=
  ((ddlFront mem charset sqlMode database).write (49 + storedNameSize database) T).writeWord 4 0
    (49 + storedNameSize database + T.length)

def ddlRecordOf (mem : RawMemory) (charset : Option CString) (sqlMode : UInt64)
    (database : Option CString) (T : List UInt8) : DDLRecord where
  mem := ddlImage mem charset sqlMode database T
  sqlMode := sqlMode.toNat
  charsetId := charsetOf charset
  database := if storedNameSize database = 0 then none else some 49
  ddl := 49 + storedNameSize database

/-- When a record is made, and which one it is. -/
theorem create_eq_ok {r : DDLRecord} (hroom : room < 2 ^ 32) (hle : querySize ≤ query.length)
    (hlt : querySize < 2 ^ 32) :
    create room mem charset sqlMode database query querySize = .ok r ↔
      querySize ≠ 0 ∧
      49 + storedNameSize database + (terminated (query.take querySize)).length ≤ room ∧
      ddlRecordOf mem charset sqlMode database (terminated (query.take querySize)) = r := by
  have hbyte : (ddlFront mem charset sqlMode database).readWord 1 48 = storedNameSize database :=
    ddlFront_size mem charset sqlMode database
  -- the query is stored behind the byte that holds the size of the database name
  have hkeeps (T : List UInt8) (n : Nat) :
      (((ddlFront mem charset sqlMode database).write (49 + storedNameSize database) T).writeWord 4 0
        n).readWord 1 48 = storedNameSize database := by
    rw [RawMemory.readWord_writeWord_of_disjoint (by omega),
      RawMemory.readWord_write_of_disjoint (by omega), hbyte]
  have hpointer (m : RawMemory) (hm : m.readWord 1 48 = storedNameSize database) :
      (if database.isNone || m.readWord 1 48 == 0 then none else some 49) =
        if storedNameSize database = 0 then none else some 49 := by
    rw [hm]
    cases database with
    | none => rfl
    | some name => simp
  constructor
  · intro hcreate
    rw [create, Exec.bind_eq_ok] at hcreate
    -- the stores one after the other, in the order of the constructor
    obtain ⟨m₀, hinit, hcreate⟩ := hcreate
    obtain ⟨_, rfl⟩ := init_eq_ok.mp hinit
    rw [init_headSize, Exec.bind_eq_ok] at hcreate
    obtain ⟨m₁, hmode, hcreate⟩ := hcreate
    obtain ⟨_, rfl⟩ := store_eq_ok.mp hmode
    rw [Exec.bind_eq_ok] at hcreate
    obtain ⟨m₂, hcharset, hcreate⟩ := hcreate
    obtain ⟨_, rfl⟩ := store_eq_ok.mp hcharset
    rw [Exec.bind_eq_ok] at hcreate
    obtain ⟨m₃, hname, hcreate⟩ := hcreate
    obtain ⟨_, rfl⟩ := storeDatabase_eq_ok.mp hname
    rw [Exec.bind_eq_ok] at hcreate
    obtain ⟨m₄, hquery, hcreate⟩ := hcreate
    change storeQuery room (ddlFront mem charset sqlMode database)
      (49 + (ddlFront mem charset sqlMode database).readWord 1 48) query querySize = _ at hquery
    rw [hbyte] at hquery
    obtain ⟨hne, hfit, rfl⟩ := (storeQuery_eq_ok hroom hle hlt).mp hquery
    refine ⟨hne, hfit, ?_⟩
    have hr := Except.ok.inj hcreate
    rw [ddlRecordOf, ← hpointer _ (hkeeps _ _), ← hr]
    rfl
  · intro ⟨hne, hfit, hr⟩
    have hquery : storeQuery room (ddlFront mem charset sqlMode database)
        (49 + storedNameSize database) query querySize = .ok _ :=
      (storeQuery_eq_ok hroom hle hlt).mpr ⟨hne, hfit, rfl⟩
    have hname : storeDatabase room (((DMLRecord.init mem).write 38 (LE.bytes 8 sqlMode.toNat)).write
        46 (LE.bytes 2 (charsetOf charset))) 49 database =
          .ok (ddlFront mem charset sqlMode database) :=
      storeDatabase_eq_ok.mpr ⟨by omega, rfl⟩
    rw [create, init_eq_ok.mpr ⟨by simp only [recordHeadSize]; omega, rfl⟩, Exec.ok_bind]
    rw [init_headSize]
    simp only [recordHeadSize]
    rw [store_of_le (by rw [LE.length_bytes]; omega), Exec.ok_bind,
      store_of_le (by rw [LE.length_bytes]; omega), Exec.ok_bind, hname, Exec.ok_bind, hbyte,
      hquery, Exec.ok_bind, ← hr, ddlRecordOf, ← hpointer _ (hkeeps _ _)]
    rfl

/-! ## What is read -/

theorem charsetOf_eq (charset : Option CString) : charsetOf charset = namedCharset charset := by
  cases charset with
  | none => rfl
  | some name =>
    simp only [charsetOf, getCharset_eq name.2, namedCharset, Option.bind_some]
    cases sortedCharsetInfo.find? fun row => nameString row.1 = name.1.map tolower with
    | none => rfl
    | some row => rfl

private theorem charsetOf_lt (charset : Option CString) : charsetOf charset < 2 ^ 16 := by
  have hid (c : CHARSET) : c.id < 2 ^ 16 := by
    cases c <;> decide
  unfold charsetOf
  split
  · exact hid _
  · split <;> exact hid _

/-- What the fields of the image are, in the order of their places. -/
structure DDLImage (m : RawMemory) (charset : Option CString) (sqlMode : UInt64)
    (database : Option CString) (T : List UInt8) : Prop where
  headSize : m.readWord 1 5 = 38
  sqlMode : m.readWord 8 38 = sqlMode.toNat
  charsetId : m.readWord 2 46 = namedCharset charset
  nameSize : m.readWord 1 48 = storedNameSize database
  name : m.read 49 (storedNameSize database) = (nameField database).take (storedNameSize database)
  text : m.read (49 + storedNameSize database) T.length = T
  size : m.readWord 4 0 = (49 + storedNameSize database + T.length) % 2 ^ 32

/-- The fields in front of the query are where the reader looks for them. -/
theorem ddlImage_front (mem : RawMemory) (charset : Option CString) (sqlMode : UInt64)
    (database : Option CString) (T : List UInt8) :
    DDLImage (ddlImage mem charset sqlMode database T) charset sqlMode database T where
  headSize := by
    unfold ddlImage ddlFront
    rw [RawMemory.readWord_writeWord_of_disjoint (by omega)]
    simp (disch := omega) only [RawMemory.readWord_write_of_disjoint]
    exact init_headSize mem
  sqlMode := by
    unfold ddlImage ddlFront
    rw [RawMemory.readWord_writeWord_of_disjoint (by omega)]
    simp (disch := omega) only [RawMemory.readWord_write_of_disjoint]
    exact RawMemory.readWord_writeWord_self sqlMode.toNat_lt
  charsetId := by
    unfold ddlImage ddlFront
    rw [RawMemory.readWord_writeWord_of_disjoint (by omega)]
    simp (disch := omega) only [RawMemory.readWord_write_of_disjoint]
    rw [← charsetOf_eq]
    exact RawMemory.readWord_writeWord_self (charsetOf_lt charset)
  nameSize := by
    unfold ddlImage
    rw [RawMemory.readWord_writeWord_of_disjoint (by omega),
      RawMemory.readWord_write_of_disjoint (by omega), ddlFront_size]
  name := by
    have hlen : ((nameField database).take (storedNameSize database)).length =
        storedNameSize database := by
      rw [List.length_take, Nat.min_eq_left (storedNameSize_le database)]
    unfold ddlImage
    rw [RawMemory.writeWord, RawMemory.read_write_of_disjoint (by rw [LE.length_bytes]; omega),
      RawMemory.read_write_of_disjoint (by omega)]
    have hread := RawMemory.read_write_self (m := ((((DMLRecord.init mem).write 38
      (LE.bytes 8 sqlMode.toNat)).write 46 (LE.bytes 2 (charsetOf charset))).write 48
        (LE.bytes 1 (nameField database).length))) (p := 49)
          (d := (nameField database).take (storedNameSize database))
    rw [hlen] at hread
    exact hread
  text := by
    unfold ddlImage
    rw [RawMemory.writeWord, RawMemory.read_write_of_disjoint (by rw [LE.length_bytes]; omega)]
    exact RawMemory.read_write_self
  size := RawMemory.readWord_writeWord

namespace DDLImage

variable {m : RawMemory} {T : List UInt8} (h : DDLImage m charset sqlMode database T)

include h

theorem load_eq : DDLRecord.load m =
    { mem := m, sqlMode := sqlMode.toNat, charsetId := namedCharset charset, database := some 49
      ddl := 49 + storedNameSize database } := by
  unfold DDLRecord.load
  dsimp only
  rw [h.headSize, h.sqlMode, h.charsetId, h.nameSize]

theorem databaseText_eq :
    (DDLRecord.load m).databaseText = .ok ((nameField database).take (storedNameSize database)) := by
  rw [h.load_eq, databaseText, databaseSize]
  rw [deref_some, Exec.ok_bind, Exec.ok_bind, Exec.pure_eq, h.nameSize, Exec.ok_bind, h.name]
  rfl

theorem ddlText_eq (hT : 49 + storedNameSize database + T.length < 2 ^ 32) :
    (DDLRecord.load m).ddlText = T := by
  have hsize : DMLRecord.sub32 ((49 + storedNameSize database + T.length) % 2 ^ 32)
      (49 + storedNameSize database) = T.length := by
    unfold DMLRecord.sub32
    omega
  rw [h.load_eq, ddlText, ddlSize]
  show m.read _ (DMLRecord.sub32 (m.readWord 4 0) _) = T
  rw [h.size, hsize, h.text]

end DDLImage

theorem le_length_terminated (text : List UInt8) : text.length ≤ (terminated text).length := by
  unfold terminated
  split
  · exact Nat.le_refl _
  · simp

theorem length_terminated_le (text : List UInt8) : (terminated text).length ≤ text.length + 1 := by
  unfold terminated
  split
  · omega
  · simp

theorem length_nameField (database : Option CString) :
    (nameField database).length =
      if BinlogEventParser.dbSize database = 0 then 0
      else BinlogEventParser.dbSize database + 1 := by
  cases database with
  | none => rfl
  | some name =>
    by_cases hname : name.1 = []
    · simp [nameField, BinlogEventParser.dbSize, hname]
    · simp [nameField, BinlogEventParser.dbSize, hname]

theorem ddlRoom_eq (database : Option CString) (query : List UInt8) :
    BinlogEventParser.ddlRoom database query =
      (52 + BinlogEventParser.dbSize database + query.length) % 2 ^ 32 := by
  simp only [BinlogEventParser.ddlRoom, allocSize, recordHeadSize]
  omega

theorem fits_of_ddlRoundTrips (h : DDLRoundTrips mem charset sqlMode database query) :
    BinlogEventParser.dbSize database ≤ 254 ∧ query ≠ [] ∧
      52 + BinlogEventParser.dbSize database + query.length < 2 ^ 32 := by
  have hfield := length_nameField database
  have hroom := ddlRoom_eq database query
  obtain ⟨r, hr, hmode, hcharset, hname, htext, hsize⟩ := h
  obtain ⟨hne, hfit, rfl⟩ := (create_eq_ok (by omega) (Nat.mod_le _ _) (by omega)).mp hr
  have hfront := ddlImage_front mem charset sqlMode database
    (terminated (query.take (query.length % 2 ^ 32)))
  simp only [ddlRecordOf] at hname htext
  rw [hfront.databaseText_eq] at hname
  rw [hfront.ddlText_eq (by omega)] at htext
  have hstored := congrArg List.length (Except.ok.inj hname)
  rw [List.length_take, Nat.min_eq_left (storedNameSize_le database), storedNameSize,
    hfield] at hstored
  have hlength := congrArg List.length htext
  have hle := le_length_terminated query
  have hdb : BinlogEventParser.dbSize database ≤ 254 := by
    split at hstored <;> omega
  refine ⟨hdb, ?_, by omega⟩
  intro hempty
  rw [hempty] at hne
  exact hne rfl

/-- A statement is read back exactly where the name has at most 254 bytes, the query is not empty,
    and the room for them is less than 4 GiB. -/
theorem ddlRoundTrips_iff (mem : RawMemory) (charset : Option CString) (sqlMode : UInt64)
    (database : Option CString) (query : List UInt8) :
    DDLRoundTrips mem charset sqlMode database query ↔
      BinlogEventParser.dbSize database ≤ 254 ∧ query ≠ [] ∧
        52 + BinlogEventParser.dbSize database + query.length < 2 ^ 32 := by
  have hfield := length_nameField database
  have hroom := ddlRoom_eq database query
  constructor
  · exact fits_of_ddlRoundTrips
  · intro ⟨hdb, hquery, hlt⟩
    have hlen : query.length % 2 ^ 32 = query.length := Nat.mod_eq_of_lt (by omega)
    have hpos := List.length_pos_iff.mpr hquery
    have hstored : storedNameSize database = (nameField database).length := by
      rw [storedNameSize, hfield]
      split <;> omega
    have hname : (nameField database).length ≤ BinlogEventParser.dbSize database + 1 := by
      rw [hfield]
      split <;> omega
    have htext := length_terminated_le query
    have hfront := ddlImage_front mem charset sqlMode database (terminated query)
    have hwritten : BinlogEventParser.ddl mem charset sqlMode database query =
        .ok (ddlRecordOf mem charset sqlMode database (terminated query)) := by
      rw [BinlogEventParser.ddl, hlen, create_eq_ok (by omega) (Nat.le_refl _) (by omega),
        List.take_length]
      exact ⟨by omega, by omega, rfl⟩
    refine ⟨_, hwritten, ?_⟩
    simp only [ddlRecordOf, size]
    rw [hfront.databaseText_eq, hfront.ddlText_eq (by omega), hfront.size, hstored,
      List.take_length, hfront.load_eq]
    exact ⟨rfl, rfl, rfl, rfl, by omega⟩

/-- A name of 255 bytes is lost, and an empty query is not written. -/
theorem longName_lost :
    ¬ DDLRoundTrips (fun _ => 0) none 0 (some ⟨List.replicate 255 100,
        fun h => absurd (List.eq_of_mem_replicate h) (by decide)⟩) [65] ∧
      ¬ DDLRoundTrips (fun _ => 0) none 0 none [] := by
  constructor
  · intro h
    have hle : (List.replicate 255 (100 : UInt8)).length ≤ 254 := (fits_of_ddlRoundTrips h).1
    rw [List.length_replicate] at hle
    omega
  · intro h
    exact (fits_of_ddlRoundTrips h).2.1 rfl

end DBStream.Native
