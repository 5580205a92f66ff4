import DBStream.ForStd.Bytes
import Mathlib.Data.List.Forall2

/-!
# Records

The packed record format of `message/record.h`.  A record is its bytes: a
`recordHead` of 38 bytes and a body.  Head fields are read at their offsets in
the packed structure:

| field | offset | width |
|---|---|---|
| `minHead.size` | 0 | 4 |
| `minHead.externSize`, `headSize`, `type`, `version` | 4, 5, 6, 7 | 1 |
| `flag` | 8 | 2 |
| `recordId` | 10 | 8 |
| `logOffset` | 18 | 8 |
| `timestamp` | 26 | 8 |
| `txnId` | 34 | 4 |

Undefined behaviour and aborts of the C++ code are errors of type `Fault`.
-/

namespace DBStream.Native

/-- The ways an execution leaves the defined part of the program.  `pageOverflow` is a write
    behind the page array that `toSolidBlock` allocates, `dangling` a use of a deleted block;
    `endless` stands for a loop that does not end within the fuel it was given. -/
inductive Fault where
  | abort
  | assertFailed
  | nullDeref
  | outOfBounds
  | uninitialized
  | pageOverflow
  | dangling
  | endless
  deriving DecidableEq

/-- A computation of the program: a result or a fault. -/
abbrev Exec := Except Fault

variable {α β : Type}

@[simp] theorem Exec.ok_bind (a : α) (f : α → Exec β) :
    ((.ok a : Exec α) >>= f) = f a := rfl

@[simp] theorem Exec.pure_eq {α : Type} (a : α) : (pure a : Exec α) = .ok a := rfl

variable {f : α → Exec β}

theorem Exec.bind_eq_ok {x : Exec α} {b : β} :
    (x >>= f) = .ok b ↔ ∃ a, x = .ok a ∧ f a = .ok b := by
  cases x with
  | error e =>
    constructor
    · intro h
      cases h
    · rintro ⟨a, ha, _⟩
      cases ha
  | ok a =>
    constructor
    · intro h
      exact ⟨a, rfl, h⟩
    · rintro ⟨a', ha, h⟩
      cases ha
      exact h

theorem Exec.of_bind {x : Exec α} {b : β} (h : x >>= f = .ok b) :
    ∃ a, x = .ok a ∧ f a = .ok b :=
  Exec.bind_eq_ok.mp h

theorem Exec.isSome_mapM {o : Option α} {o' : Option β}
    (h : o.mapM f = .ok o') : o'.isSome = o.isSome := by
  cases o with
  | none =>
    cases h
    rfl
  | some a =>
    obtain ⟨b, _, hret⟩ := Exec.of_bind h
    cases hret
    rfl

theorem Exec.mapM_eq_ok {l : List α} {l' : List β} :
    l.mapM f = .ok l' ↔ List.Forall₂ (fun a b => f a = .ok b) l l' := by
  induction l generalizing l' with
  | nil =>
    rw [List.forall₂_nil_left_iff]
    constructor
    · intro h
      cases h
      rfl
    · rintro rfl
      rfl
  | cons a l ih =>
    rw [List.mapM_cons, Exec.bind_eq_ok, List.forall₂_cons_left_iff]
    constructor
    · rintro ⟨b, hb, hrest⟩
      obtain ⟨bs, hbs, hret⟩ := Exec.of_bind hrest
      cases hret
      exact ⟨b, bs, hb, ih.mp hbs, rfl⟩
    · rintro ⟨b, bs, hb, hbs, rfl⟩
      exact ⟨b, hb, Exec.bind_eq_ok.mpr ⟨bs, ih.mpr hbs, rfl⟩⟩

theorem Exec.length_mapM {l : List α} {l' : List β}
    (h : l.mapM f = .ok l') : l'.length = l.length := (Exec.mapM_eq_ok.mp h).length_eq.symm

/-- Read through a pointer that may be null. -/
def deref {α : Type} : Option α → Exec α
  | some a => .ok a
  | none => .error .nullDeref

@[simp] theorem deref_some {α : Type} (a : α) : deref (some a) = .ok a := rfl

theorem deref_eq_ok {α : Type} {o : Option α} {a : α} (h : deref o = .ok a) : o = some a := by
  cases o with
  | none => cases h
  | some b => cases h; rfl

/-- An element of an array. -/
def tableAt {α : Type} (table : List α) (i : Nat) : Exec α :=
  match table[i]? with
  | none => .error .outOfBounds
  | some a => .ok a

inductive RecordType where
  | R_INSERT | R_UPDATE | R_DELETE | R_REPLACE | R_ROLLBACK | R_DDL | R_TABLE_META
  | M_TABLE_META_REQ | R_DATABASE_META | M_DATABASE_META_REQ | R_HEARTBEAT | M_LOGIN_REQ
  | M_LOGIN_ACK | M_LOGIN | M_LOGIN_RESULT | M_SQL | MAX_RECORD_TYPE
  deriving DecidableEq

/-- The value of the enumerator, as stored in `minHead.type`. -/
def RecordType.code : RecordType → Nat
  | .R_INSERT => 0 | .R_UPDATE => 1 | .R_DELETE => 2 | .R_REPLACE => 3 | .R_ROLLBACK => 4
  | .R_DDL => 5 | .R_TABLE_META => 6 | .M_TABLE_META_REQ => 7 | .R_DATABASE_META => 8
  | .M_DATABASE_META_REQ => 9 | .R_HEARTBEAT => 10 | .M_LOGIN_REQ => 11 | .M_LOGIN_ACK => 12
  | .M_LOGIN => 13 | .M_LOGIN_RESULT => 14 | .M_SQL => 15 | .MAX_RECORD_TYPE => 16

/-- `sizeof(recordHead)`. -/
def recordHeadSize : Nat := 38

def ENDOF_REDO_NUM : Nat := 0xfff8fff4fff2fff1

namespace RecordHead

def size (d : List UInt8) : Nat := LE.nat (d.slice 0 4)

def headSize (d : List UInt8) : Nat := LE.nat (d.slice 5 1)

def type (d : List UInt8) : Nat := LE.nat (d.slice 6 1)

def recordId (d : List UInt8) : Nat := LE.nat (d.slice 10 8)

def logOffset (d : List UInt8) : Nat := LE.nat (d.slice 18 8)

def timestamp (d : List UInt8) : Nat := LE.nat (d.slice 26 8)

def txnId (d : List UInt8) : Nat := LE.nat (d.slice 34 4)

/-- Store a record id (a `uint64_t`) into the head. -/
def setRecordId (d : List UInt8) (id : Nat) : List UInt8 :=
  d.take 10 ++ (LE.bytes 8 id ++ d.drop 18)

/-- Store a transaction id (a `uint32_t`) into the head. -/
def setTxnId (d : List UInt8) (id : Nat) : List UInt8 :=
  d.take 34 ++ (LE.bytes 4 id ++ d.drop 38)

/-- `type <= R_REPLACE`: the record is a row change and has a table. -/
def isDML (d : List UInt8) : Bool := type d ≤ RecordType.R_REPLACE.code

/-! ### What `setRecordId` changes -/

@[simp] theorem length_setRecordId {d : List UInt8} (id : Nat) (h : recordHeadSize ≤ d.length) :
    (setRecordId d id).length = d.length := by
  simp only [recordHeadSize] at h
  simp [setRecordId]
  omega

theorem slice_setRecordId_left {d : List UInt8} {off len : Nat} (id : Nat)
    (h : recordHeadSize ≤ d.length) (hf : off + len ≤ 10) :
    (setRecordId d id).slice off len = d.slice off len := by
  simp only [recordHeadSize] at h
  have htake : (d.take 10).length = 10 := by simp; omega
  rw [setRecordId, List.slice_append_left _ (by omega)]
  conv_rhs => rw [← List.take_append_drop 10 d, List.slice_append_left _ (by omega)]

theorem slice_setRecordId_right {d : List UInt8} (off len id : Nat)
    (h : recordHeadSize ≤ d.length) :
    (setRecordId d id).slice (18 + off) len = d.slice (18 + off) len := by
  simp only [recordHeadSize] at h
  have htake : (d.take 18).length = 18 := by simp; omega
  have hpre : (d.take 10 ++ LE.bytes 8 id).length = 18 := by simp; omega
  rw [setRecordId, ← List.append_assoc, List.slice_append_right_of_eq _ _ _ hpre]
  conv_rhs => rw [← List.take_append_drop 18 d, List.slice_append_right_of_eq _ _ _ htake]

@[simp] theorem length_setTxnId {d : List UInt8} (id : Nat) (h : recordHeadSize ≤ d.length) :
    (setTxnId d id).length = d.length := by
  simp only [recordHeadSize] at h
  simp [setTxnId]
  omega

theorem slice_setTxnId_left {d : List UInt8} {off len : Nat} (id : Nat)
    (h : recordHeadSize ≤ d.length) (hf : off + len ≤ 34) :
    (setTxnId d id).slice off len = d.slice off len := by
  simp only [recordHeadSize] at h
  have htake : (d.take 34).length = 34 := by simp; omega
  rw [setTxnId, List.slice_append_left _ (by omega)]
  conv_rhs => rw [← List.take_append_drop 34 d, List.slice_append_left _ (by omega)]

theorem slice_setTxnId_right {d : List UInt8} (off len id : Nat)
    (h : recordHeadSize ≤ d.length) :
    (setTxnId d id).slice (38 + off) len = d.slice (38 + off) len := by
  simp only [recordHeadSize] at h
  have htake : (d.take 38).length = 38 := by simp; omega
  have hpre : (d.take 34 ++ LE.bytes 4 id).length = 38 := by simp; omega
  rw [setTxnId, ← List.append_assoc, List.slice_append_right_of_eq _ _ _ hpre]
  conv_rhs => rw [← List.take_append_drop 38 d, List.slice_append_right_of_eq _ _ _ htake]

variable {d : List UInt8} (h : recordHeadSize ≤ d.length) (id : Nat)

include h

theorem size_setRecordId : size (setRecordId d id) = size d := by
  rw [size, slice_setRecordId_left id h (by omega), size]

theorem headSize_setRecordId : headSize (setRecordId d id) = headSize d := by
  rw [headSize, slice_setRecordId_left id h (by omega), headSize]

theorem type_setRecordId : type (setRecordId d id) = type d := by
  rw [type, slice_setRecordId_left id h (by omega), type]

theorem logOffset_setRecordId : logOffset (setRecordId d id) = logOffset d := by
  have := slice_setRecordId_right 0 8 id h
  rw [logOffset, logOffset, this]

theorem timestamp_setRecordId : timestamp (setRecordId d id) = timestamp d := by
  have := slice_setRecordId_right 8 8 id h
  rw [timestamp, timestamp, this]

theorem recordId_setRecordId : recordId (setRecordId d id) = id % 2 ^ 64 := by
  simp only [recordHeadSize] at h
  rw [recordId, setRecordId, List.slice_append_mid _ (by simp; omega) (by simp), LE.nat_bytes,
    show (256 : Nat) ^ 8 = 2 ^ 64 by norm_num]

end RecordHead

/-- `DMLRecord::tableId`: the table id a row change carries behind its head. -/
def DMLRecord.tableId (d : List UInt8) : Nat := LE.nat (d.slice (RecordHead.headSize d) 8)

/-- Where the bytes of a record lie when they were built inside a page of a block. -/
structure MemAddr where
  block : Nat
  slot : Nat
  offset : Nat
  deriving DecidableEq

/-- A record handed to the store.  `record::init` sets `headSize`, and the writers
    (`finishedSet`, `DDLRecord::create`) set `size` to the number of bytes.  `addr` is the
    place of `record->data` when it points into a page, `none` for a foreign buffer. -/
structure Record where
  data : List UInt8
  addr : Option MemAddr
  head_le : recordHeadSize ≤ data.length
  headSize_eq : RecordHead.headSize data = recordHeadSize
  size_eq : RecordHead.size data = data.length

namespace Record

variable (r : Record)

/-- The record with the id the block gives it. -/
def stamped (id : Nat) : List UInt8 := RecordHead.setRecordId r.data id

@[simp] theorem length_stamped (id : Nat) : (r.stamped id).length = r.data.length :=
  RecordHead.length_setRecordId id r.head_le

theorem size_stamped (id : Nat) : RecordHead.size (r.stamped id) = r.data.length := by
  rw [stamped, RecordHead.size_setRecordId r.head_le, r.size_eq]

theorem tableId_stamped (id : Nat) :
    DMLRecord.tableId (r.stamped id) = DMLRecord.tableId r.data := by
  have hh : RecordHead.headSize (r.stamped id) = recordHeadSize := by
    rw [stamped, RecordHead.headSize_setRecordId r.head_le, r.headSize_eq]
  have := RecordHead.slice_setRecordId_right 20 8 id r.head_le
  rw [DMLRecord.tableId, DMLRecord.tableId, hh, r.headSize_eq]
  exact congrArg LE.nat this

theorem recordId_stamped (id : Nat) : RecordHead.recordId (r.stamped id) = id % 2 ^ 64 :=
  RecordHead.recordId_setRecordId r.head_le id

/-- What `database::insert` writes into the head before the record goes to a block. -/
def prepare (txnId recordId : Nat) : Record where
  data := RecordHead.setTxnId (RecordHead.setRecordId r.data recordId) txnId
  addr := r.addr
  head_le := by
    have hlen := RecordHead.length_setRecordId recordId r.head_le
    rw [RecordHead.length_setTxnId _ (by rw [hlen]; exact r.head_le), hlen]
    exact r.head_le
  headSize_eq := by
    have hlen := RecordHead.length_setRecordId recordId r.head_le
    have hhead := r.headSize_eq
    rw [RecordHead.headSize, RecordHead.slice_setTxnId_left _ (by rw [hlen]; exact r.head_le)
      (by omega)]
    rw [← RecordHead.headSize, RecordHead.headSize_setRecordId r.head_le, hhead]
  size_eq := by
    have hlen := RecordHead.length_setRecordId recordId r.head_le
    have hsize := r.size_eq
    rw [RecordHead.size, RecordHead.slice_setTxnId_left _ (by rw [hlen]; exact r.head_le)
      (by omega), RecordHead.length_setTxnId _ (by rw [hlen]; exact r.head_le), hlen]
    rw [← RecordHead.size, RecordHead.size_setRecordId r.head_le, hsize]

theorem length_prepare (txnId recordId : Nat) :
    (r.prepare txnId recordId).data.length = r.data.length := by
  have hlen := RecordHead.length_setRecordId recordId r.head_le
  show (RecordHead.setTxnId _ _).length = _
  rw [RecordHead.length_setTxnId _ (by rw [hlen]; exact r.head_le), hlen]

theorem slice_prepare (txnId recordId : Nat) {off len : Nat}
    (hf : off + len ≤ 10 ∨ (18 ≤ off ∧ off + len ≤ 34) ∨ 38 ≤ off) :
    (r.prepare txnId recordId).data.slice off len = r.data.slice off len := by
  have hlen : recordHeadSize ≤ (RecordHead.setRecordId r.data recordId).length := by
    rw [RecordHead.length_setRecordId recordId r.head_le]
    exact r.head_le
  show (RecordHead.setTxnId _ _).slice off len = _
  rcases hf with hf | ⟨hlo, hhi⟩ | hf
  · rw [RecordHead.slice_setTxnId_left _ hlen (by omega),
      RecordHead.slice_setRecordId_left _ r.head_le hf]
  · obtain ⟨n, rfl⟩ := Nat.exists_eq_add_of_le hlo
    rw [RecordHead.slice_setTxnId_left _ hlen hhi,
      RecordHead.slice_setRecordId_right _ _ _ r.head_le]
  · obtain ⟨n, rfl⟩ := Nat.exists_eq_add_of_le hf
    rw [RecordHead.slice_setTxnId_right _ _ _ hlen, show 38 + n = 18 + (20 + n) by omega,
      RecordHead.slice_setRecordId_right _ _ _ r.head_le]

theorem type_prepare (txnId recordId : Nat) :
    RecordHead.type (r.prepare txnId recordId).data = RecordHead.type r.data := by
  rw [RecordHead.type, r.slice_prepare _ _ (by omega), RecordHead.type]

theorem logOffset_prepare (txnId recordId : Nat) :
    RecordHead.logOffset (r.prepare txnId recordId).data = RecordHead.logOffset r.data := by
  rw [RecordHead.logOffset, r.slice_prepare _ _ (by omega), RecordHead.logOffset]

theorem tableId_prepare (txnId recordId : Nat) :
    DMLRecord.tableId (r.prepare txnId recordId).data = DMLRecord.tableId r.data := by
  have hhead := (r.prepare txnId recordId).headSize_eq
  rw [DMLRecord.tableId, DMLRecord.tableId, hhead, r.headSize_eq]
  exact congrArg LE.nat (r.slice_prepare _ _ (by simp [recordHeadSize]))

/-- The record as the block holds it is a record again. -/
def restamp (id : Nat) : Record where
  data := r.stamped id
  addr := none
  head_le := by rw [length_stamped]; exact r.head_le
  headSize_eq := by rw [stamped, RecordHead.headSize_setRecordId r.head_le, r.headSize_eq]
  size_eq := by rw [size_stamped, length_stamped]

end Record

namespace Record

/-- A record from its parts, as `record::init` and the setters leave it. -/
def bytesOf (type : UInt8) (logOffset timestamp txnId : Nat) (body : List UInt8) : List UInt8 :=
  LE.bytes 4 (recordHeadSize + body.length) ++ ([0, 38, type, 1] ++ ([0, 0] ++ (LE.bytes 8 0 ++
    (LE.bytes 8 logOffset ++ (LE.bytes 8 timestamp ++ (LE.bytes 4 txnId ++ body))))))

/-- `bytesOf` as a record in a buffer of its own. -/
def build (type : UInt8) (logOffset timestamp txnId : Nat) (body : List UInt8)
    (h : recordHeadSize + body.length < 2 ^ 32) : Record where
  data := bytesOf type logOffset timestamp txnId body
  addr := none
  head_le := by
    simp only [bytesOf, recordHeadSize, List.length_append, LE.length_bytes, List.length_cons,
      List.length_nil]
    omega
  headSize_eq := by
    have h4 : (LE.bytes 4 (recordHeadSize + body.length)).length = 4 := LE.length_bytes ..
    rw [RecordHead.headSize, bytesOf, List.slice_append_right_of_eq _ 1 1 h4]
    rfl
  size_eq := by
    have h4 := LE.length_bytes 4 (recordHeadSize + body.length)
    have hlen : (bytesOf type logOffset timestamp txnId body).length =
        recordHeadSize + body.length := by
      simp only [bytesOf, recordHeadSize, List.length_append, LE.length_bytes, List.length_cons,
        List.length_nil]
      omega
    rw [hlen, RecordHead.size, bytesOf, List.slice_append_left _ (by rw [h4]),
      show List.slice (LE.bytes 4 (recordHeadSize + body.length)) 0 4 = _ from
        (congrArg (List.slice _ 0) h4).symm.trans (List.slice_zero_length _),
      LE.nat_bytes_of_lt (by simpa using h)]

variable (type : UInt8) (logOffset timestamp txnId : Nat) (body : List UInt8)
  (h : recordHeadSize + body.length < 2 ^ 32)

theorem length_build : (build type logOffset timestamp txnId body h).data.length =
    recordHeadSize + body.length := by
  simp only [build, bytesOf, recordHeadSize, List.length_append, LE.length_bytes,
    List.length_cons, List.length_nil]
  omega

theorem type_build :
    RecordHead.type (build type logOffset timestamp txnId body h).data = type.toNat := by
  have h4 := LE.length_bytes 4 (recordHeadSize + body.length)
  have hslice := List.slice_append_right_of_eq ([0, 38, type, 1] ++ ([0, 0] ++ (LE.bytes 8 0 ++
    (LE.bytes 8 logOffset ++ (LE.bytes 8 timestamp ++ (LE.bytes 4 txnId ++ body)))))) 2 1 h4
  rw [RecordHead.type, show 6 = 4 + 2 from rfl]
  refine (congrArg LE.nat hslice).trans ?_
  simp [List.slice]

theorem logOffset_build (hlog : logOffset < 2 ^ 64) :
    RecordHead.logOffset (build type logOffset timestamp txnId body h).data = logOffset := by
  have hpre : (LE.bytes 4 (recordHeadSize + body.length) ++ ([0, 38, type, 1] ++ ([0, 0] ++
      LE.bytes 8 0))).length = 18 := by
    simp
  have hsplit : (build type logOffset timestamp txnId body h).data =
      (LE.bytes 4 (recordHeadSize + body.length) ++ ([0, 38, type, 1] ++ ([0, 0] ++
        LE.bytes 8 0))) ++ (LE.bytes 8 logOffset ++ (LE.bytes 8 timestamp ++
        (LE.bytes 4 txnId ++ body))) := by
    simp only [build, bytesOf, List.append_assoc]
  rw [RecordHead.logOffset, hsplit, List.slice_append_mid _ hpre (LE.length_bytes ..),
    LE.nat_bytes_of_lt (by simpa using hlog)]

end Record

/-- The record that starts at `off` in a buffer: `minHead.size` bytes from there. -/
def recordAt (buf : List UInt8) (off : Nat) : Exec (List UInt8) :=
  if off + recordHeadSize ≤ buf.length ∧ off + RecordHead.size (buf.drop off) ≤ buf.length then
    .ok (buf.slice off (RecordHead.size (buf.drop off)))
  else .error .outOfBounds

theorem recordAt_append {pre bs : List UInt8} (post : List UInt8)
    (hhead : recordHeadSize ≤ bs.length) (hsize : RecordHead.size bs = bs.length) :
    recordAt (pre ++ (bs ++ post)) pre.length = .ok bs := by
  have hdrop : (pre ++ (bs ++ post)).drop pre.length = bs ++ post := by simp
  have hs : RecordHead.size (bs ++ post) = bs.length := by
    rw [← hsize, RecordHead.size, RecordHead.size,
      List.slice_append_left _ (by simp only [recordHeadSize] at hhead; omega)]
  rw [recordAt, hdrop, hs, if_pos ⟨by simp; omega, by simp⟩, List.slice_append_mid _ rfl rfl]

end DBStream.Native
