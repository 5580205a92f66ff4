import DBStream.ForStd.Bytes

/-!
# Fixed layouts

A `Codec` writes values of a type as a fixed number of bytes.  `Codec.ofWords` makes one
from the widths of the words of a packed structure, and `encodeAll` / `decodeAll` are for
tables, one entry behind the other.

`Fits` says that a value is one of those the layout has room for; only these are read back.
A codec is canonical if the bytes of an entry are determined by its value.
-/

namespace LE

/-- The words `vs`, each as many bytes as the width at its place says. -/
def fields : List Nat → List Nat → List UInt8
  | w :: ws, v :: vs => bytes w v ++ fields ws vs
  | _, _ => []

/-- The words of the given widths at the start of `d`. -/
def parse : List Nat → List UInt8 → List Nat
  | [], _ => []
  | w :: ws, d => nat (d.take w) :: parse ws (d.drop w)

theorem fields_cons (w v : Nat) (ws vs : List Nat) :
    fields (w :: ws) (v :: vs) = bytes w v ++ fields ws vs := rfl

theorem parse_cons (w : Nat) (ws : List Nat) (d : List UInt8) :
    parse (w :: ws) d = nat (d.take w) :: parse ws (d.drop w) := rfl

@[simp] theorem length_parse (ws : List Nat) (d : List UInt8) :
    (parse ws d).length = ws.length := by
  induction ws generalizing d with
  | nil => rfl
  | cons w ws ih => simp [parse_cons, ih]

theorem length_fields {ws vs : List Nat} (h : vs.length = ws.length) :
    (fields ws vs).length = ws.sum := by
  induction ws generalizing vs with
  | nil =>
    cases vs <;> rfl
  | cons w ws ih =>
    cases vs with
    | nil => simp at h
    | cons v vs =>
      simp only [List.length_cons, Nat.add_right_cancel_iff] at h
      simp [fields_cons, ih h]

theorem fields_concat (ws vs : List Nat) (h : vs.length = ws.length) (w v : Nat) :
    fields (ws ++ [w]) (vs ++ [v]) = fields ws vs ++ bytes w v := by
  induction ws generalizing vs with
  | nil =>
    cases List.length_eq_zero_iff.mp h
    exact List.append_nil _
  | cons w' ws ih =>
    cases vs with
    | nil => simp at h
    | cons v' vs =>
      simp only [List.length_cons, Nat.add_right_cancel_iff] at h
      simp only [List.cons_append, fields_cons, ih vs h, List.append_assoc]

private theorem parse_fields {ws vs : List Nat} (h : List.Forall₂ (fun w v => v < 256 ^ w) ws vs) :
    parse ws (fields ws vs) = vs := by
  induction h with
  | nil => rfl
  | @cons w v ws vs hv hvs ih =>
    have htake : (bytes w v ++ fields ws vs).take w = bytes w v :=
      List.take_left' (length_bytes w v)
    have hdrop : (bytes w v ++ fields ws vs).drop w = fields ws vs :=
      List.drop_left' (length_bytes w v)
    rw [fields_cons, parse_cons, htake, hdrop, nat_bytes_of_lt hv, ih]

theorem fields_parse {ws : List Nat} {d : List UInt8} (h : d.length = ws.sum) :
    fields ws (parse ws d) = d := by
  induction ws generalizing d with
  | nil =>
    have hnil : d = [] := List.length_eq_zero_iff.mp (by simpa using h)
    rw [hnil]
    rfl
  | cons w ws ih =>
    rw [List.sum_cons] at h
    have htake : (d.take w).length = w := by
      rw [List.length_take]
      omega
    have hword : bytes w (nat (d.take w)) = d.take w := by
      have hbytes := bytes_nat (d.take w)
      rw [htake] at hbytes
      exact hbytes
    have hrest : (d.drop w).length = ws.sum := by
      rw [List.length_drop]
      omega
    rw [parse_cons, fields_cons, hword, ih hrest, List.take_append_drop]

end LE

/-- A layout of `size` bytes for the values of `α` that fit it. -/
structure Codec (α : Type) where
  size : Nat
  encode : α → List UInt8
  decode : List UInt8 → α
  Fits : α → Prop
  length_encode : ∀ a, (encode a).length = size
  decode_encode : ∀ a, Fits a → decode (encode a) = a

namespace Codec

variable {α : Type}

/-- The layout of a packed structure, from the widths of its words. -/
def ofWords (widths : List Nat) (toWords : α → List Nat) (ofWords : List Nat → α)
    (hlen : ∀ a, (toWords a).length = widths.length)
    (hinv : ∀ a, ofWords (toWords a) = a) : Codec α where
  size := widths.sum
  encode := fun a => LE.fields widths (toWords a)
  decode := fun d => ofWords (LE.parse widths d)
  Fits := fun a => List.Forall₂ (fun w v => v < 256 ^ w) widths (toWords a)
  length_encode := fun a => LE.length_fields (hlen a)
  decode_encode := by
    intro a ha
    rw [LE.parse_fields ha, hinv]

/-- One word. -/
def word (w : Nat) : Codec Nat where
  size := w
  encode := LE.bytes w
  decode := LE.nat
  Fits := fun n => n < 256 ^ w
  length_encode := LE.length_bytes w
  decode_encode := fun _ hn => LE.nat_bytes_of_lt hn

/-- The bytes of an entry are determined by its value. -/
def Canonical (c : Codec α) : Prop := ∀ d, d.length = c.size → c.encode (c.decode d) = d

theorem canonical_word (w : Nat) : (word w).Canonical := by
  intro d hd
  show LE.bytes w (LE.nat d) = d
  rw [← show d.length = w from hd, LE.bytes_nat]

theorem canonical_ofWords {widths : List Nat} {toWords : α → List Nat} {ofWords : List Nat → α}
    {hlen : ∀ a, (toWords a).length = widths.length} {hinv : ∀ a, ofWords (toWords a) = a}
    (h : ∀ ws, ws.length = widths.length → toWords (ofWords ws) = ws) :
    (Codec.ofWords widths toWords ofWords hlen hinv).Canonical := by
  intro d hd
  show LE.fields widths (toWords (ofWords (LE.parse widths d))) = d
  rw [h _ (LE.length_parse widths d), LE.fields_parse hd]

/-! ## Tables -/

variable (c : Codec α)

/-- The entries one behind the other. -/
def encodeAll (l : List α) : List UInt8 := l.flatMap c.encode

/-- The first `n` entries of a table. -/
def decodeAll : Nat → List UInt8 → List α
  | 0, _ => []
  | n + 1, d => c.decode (d.take c.size) :: decodeAll n (d.drop c.size)

@[simp] theorem length_encodeAll (l : List α) :
    (c.encodeAll l).length = l.length * c.size := by
  induction l with
  | nil => simp [encodeAll]
  | cons a l ih =>
    have hcons : c.encodeAll (a :: l) = c.encode a ++ c.encodeAll l := by simp [encodeAll]
    rw [hcons, List.length_append, ih, c.length_encode, List.length_cons, Nat.succ_mul]
    omega

theorem decodeAll_encodeAll {l : List α} (h : ∀ a ∈ l, c.Fits a) (rest : List UInt8) :
    c.decodeAll l.length (c.encodeAll l ++ rest) = l := by
  induction l with
  | nil => rfl
  | cons a l ih =>
    have hcons : c.encodeAll (a :: l) ++ rest = c.encode a ++ (c.encodeAll l ++ rest) := by
      simp [encodeAll]
    rw [hcons, List.length_cons, decodeAll, List.take_left' (c.length_encode a),
      List.drop_left' (c.length_encode a), c.decode_encode a (h a (List.mem_cons_self ..)),
      ih fun x hx => h x (List.mem_cons_of_mem a hx)]

variable {c}

theorem encodeAll_decodeAll (hc : c.Canonical) {n : Nat} {d : List UInt8}
    (h : n * c.size ≤ d.length) : c.encodeAll (c.decodeAll n d) = d.take (n * c.size) := by
  induction n generalizing d with
  | zero => simp [decodeAll, encodeAll]
  | succ n ih =>
    rw [Nat.succ_mul] at h
    have hfirst : (d.take c.size).length = c.size := by
      rw [List.length_take]
      omega
    have hrest : n * c.size ≤ (d.drop c.size).length := by
      rw [List.length_drop]
      omega
    have hcons : c.encodeAll (c.decodeAll (n + 1) d) =
        c.encode (c.decode (d.take c.size)) ++ c.encodeAll (c.decodeAll n (d.drop c.size)) := by
      simp [encodeAll, decodeAll]
    rw [hcons, hc _ hfirst, ih hrest, Nat.succ_mul, Nat.add_comm, List.take_add]

end Codec
