import FlashReduce.Library.LittleEndian
import FlashReduce.Library.Varint

/-!
# Fields on the wire

A field on the wire is its number and a value, which is a varint or the content of another
wire type.

* `WireRuntime` is what the generated code of a message calls: how one field is written,
  how many bytes that takes, and how a sequence of fields is read.  What the other wire
  types carry is up to the runtime.  Its laws are part of it.
* `varintRuntime` satisfies them with the wire format, whose other types are numbers of
  four and of eight bytes and counted bytes.  It has no groups.
-/

namespace FlashReduce
namespace Library

/-! ### The runtime -/

/-- What a field carries. -/
inductive WireValue (Content : Type) where
  | varint (value : Nat)
  | other (content : Content)

/-- A field number and a value. -/
abbrev WireField (Content : Type) := Nat × WireValue Content

variable {Content : Type}

def WireValue.Fits : WireValue Content → Prop
  | .varint value => value < 2 ^ 64
  | .other _ => True

/-- The tag of a field has 29 bits for the number. -/
def Writable (field : WireField Content) : Prop :=
  0 < field.1 ∧ field.1 < 2 ^ 29 ∧ field.2.Fits

structure WireRuntime where
  Content : Type
  write : WireField Content → List UInt8
  /-- The size of a varint and of a tag of one byte. -/
  sizePlusOne : Nat → Nat
  sizeUnknown : WireField Content → Nat
  read : List UInt8 → Option (List (WireField Content))
  length_write : ∀ number value, number < 16 →
    Writable (number, (.varint value : WireValue Content)) →
      (write (number, .varint value)).length = sizePlusOne value
  length_unknown : ∀ field, Writable field → (write field).length = sizeUnknown field
  read_write : ∀ fields, (∀ field ∈ fields, Writable field) →
    read (fields.flatMap write) = some fields
  read_writable : ∀ bytes fields, read bytes = some fields → ∀ field ∈ fields, Writable field

/-! ### The wire format -/

/-- The content of the wire types other than varints. -/
inductive WireContent where
  | fixed64 (value : UInt64)
  | delimited (bytes : List UInt8) (fits : bytes.length < 2 ^ 31)
  | fixed32 (value : UInt32)

namespace WireContent

def wireType : WireContent → Nat
  | .fixed64 _ => 1
  | .delimited _ _ => 2
  | .fixed32 _ => 5

def write : WireContent → List UInt8
  | .fixed64 value => leBytes 8 value.toNat
  | .delimited bytes _ => encodeVarint 9 bytes.length ++ bytes
  | .fixed32 value => leBytes 4 value.toNat

def size : WireContent → Nat
  | .fixed64 _ => 8
  | .delimited bytes _ => varintSize 9 bytes.length + bytes.length
  | .fixed32 _ => 4

/-- The content of a wire type at the front of some bytes. -/
def read : Nat → List UInt8 → Option (WireContent × List UInt8)
  | 1, bytes =>
      if bytes.length < 8 then none
      else some (.fixed64 (UInt64.ofNat (leValue (bytes.take 8))), bytes.drop 8)
  | 2, bytes =>
      match decodeVarint 9 bytes with
      | none => none
      | some (length, rest) =>
          if h : (rest.take length).length < 2 ^ 31 ∧ length ≤ rest.length then
            some (.delimited (rest.take length) h.1, rest.drop length)
          else none
  | 5, bytes =>
      if bytes.length < 4 then none
      else some (.fixed32 (UInt32.ofNat (leValue (bytes.take 4))), bytes.drop 4)
  | _, _ => none

theorem length_write (content : WireContent) : content.write.length = content.size := by
  cases content with
  | fixed64 value => exact length_leBytes 8 _
  | delimited bytes fits => rw [write, size, List.length_append, length_encodeVarint]
  | fixed32 value => exact length_leBytes 4 _

theorem read_write (content : WireContent) (rest : List UInt8) :
    read content.wireType (content.write ++ rest) = some (content, rest) := by
  cases content with
  | fixed64 value =>
      have hlength := length_leBytes 8 value.toNat
      have hvalue : leValue (leBytes 8 value.toNat) = value.toNat :=
        leValue_leBytes 8 _ value.toNat_lt
      simp only [wireType, write, read, List.take_left' hlength, List.drop_left' hlength, hvalue,
        UInt64.ofNat_toNat]
      rw [if_neg (by rw [List.length_append, hlength]; omega)]
  | delimited bytes fits =>
      have hbound : bytes.length < 128 ^ (9 + 1) :=
        Nat.lt_trans fits (by decide)
      simp only [wireType, write, read, List.append_assoc, decodeVarint_encodeVarint 9 _ _ hbound,
        List.take_left, List.drop_left]
      rw [dif_pos ⟨fits, by rw [List.length_append]; omega⟩]
  | fixed32 value =>
      have hlength := length_leBytes 4 value.toNat
      have hvalue : leValue (leBytes 4 value.toNat) = value.toNat :=
        leValue_leBytes 4 _ value.toNat_lt
      simp only [wireType, write, read, List.take_left' hlength, List.drop_left' hlength, hvalue,
        UInt32.ofNat_toNat]
      rw [if_neg (by rw [List.length_append, hlength]; omega)]

theorem wireType_pos (content : WireContent) : 0 < content.wireType := by
  cases content <;> exact Nat.succ_pos _

theorem wireType_lt (content : WireContent) : content.wireType < 8 := by
  cases content <;> simp [wireType]

end WireContent

namespace WireValue

def wireType : WireValue WireContent → Nat
  | .varint _ => 0
  | .other content => content.wireType

def write : WireValue WireContent → List UInt8
  | .varint value => encodeVarint 9 value
  | .other content => content.write

def size : WireValue WireContent → Nat
  | .varint value => varintSize 9 value
  | .other content => content.size

/-- The value of a wire type at the front of some bytes; a varint keeps its lowest 64 bits. -/
def read : Nat → List UInt8 → Option (WireValue WireContent × List UInt8)
  | 0, bytes => (decodeVarint 9 bytes).map fun (value, rest) => (.varint (value % 2 ^ 64), rest)
  | wireType, bytes =>
      (WireContent.read wireType bytes).map fun (content, rest) => (.other content, rest)

theorem length_write (value : WireValue WireContent) : value.write.length = value.size := by
  cases value with
  | varint value => exact length_encodeVarint 9 value
  | other content => exact content.length_write

theorem read_write {value : WireValue WireContent} (hfits : value.Fits) (rest : List UInt8) :
    read value.wireType (value.write ++ rest) = some (value, rest) := by
  cases value with
  | varint value =>
      have hbound : value < 128 ^ (9 + 1) := Nat.lt_trans hfits (by decide)
      simp only [wireType, write, read, decodeVarint_encodeVarint 9 _ _ hbound, Option.map_some,
        Nat.mod_eq_of_lt hfits]
  | other content =>
      obtain ⟨k, hk⟩ : ∃ k, content.wireType = k + 1 :=
        ⟨content.wireType - 1, (Nat.sub_add_cancel content.wireType_pos).symm⟩
      have hread := content.read_write rest
      rw [hk] at hread
      simp only [wireType, write, hk, read, hread, Option.map_some]

theorem read_fits {wireType : Nat} {bytes rest : List UInt8} {value : WireValue WireContent}
    (h : read wireType bytes = some (value, rest)) : value.Fits := by
  cases wireType with
  | zero =>
      obtain ⟨decoded, -, heq⟩ := Option.map_eq_some_iff.mp h
      cases heq
      exact Nat.mod_lt _ (by decide)
  | succ k =>
      obtain ⟨content, -, heq⟩ := Option.map_eq_some_iff.mp h
      cases heq
      exact trivial

theorem wireType_lt (value : WireValue WireContent) : value.wireType < 8 := by
  cases value with
  | varint value => exact Nat.succ_pos 7
  | other content => exact content.wireType_lt

end WireValue

/-- The tag of a field is its number, shifted past the wire type. -/
def writeField (field : WireField WireContent) : List UInt8 :=
  encodeVarint 9 (8 * field.1 + field.2.wireType) ++ field.2.write

/-- The field at the front of some bytes. -/
def readField (bytes : List UInt8) : Option (WireField WireContent × List UInt8) :=
  match decodeVarint 9 bytes with
  | none => none
  | some (tag, rest) =>
      if 0 < tag / 8 ∧ tag / 8 < 2 ^ 29 then
        (WireValue.read (tag % 8) rest).map fun (value, rest) => ((tag / 8, value), rest)
      else none

/-- The fields of some bytes, at most `more` of them. -/
def readFields : Nat → List UInt8 → Option (List (WireField WireContent))
  | _, [] => some []
  | 0, _ :: _ => none
  | more + 1, b :: bytes =>
      match readField (b :: bytes) with
      | none => none
      | some (field, rest) => (readFields more rest).map (field :: ·)

theorem readField_writeField {field : WireField WireContent} (h : Writable field)
    (rest : List UInt8) : readField (writeField field ++ rest) = some (field, rest) := by
  obtain ⟨hpos, hlt, hfits⟩ := h
  have hwire := field.2.wireType_lt
  have htag : 8 * field.1 + field.2.wireType < 128 ^ (9 + 1) :=
    Nat.lt_of_lt_of_le (by omega) (by decide : 2 ^ 32 ≤ _)
  have hnumber : (8 * field.1 + field.2.wireType) / 8 = field.1 := by omega
  have htype : (8 * field.1 + field.2.wireType) % 8 = field.2.wireType := by omega
  rw [readField, writeField, List.append_assoc, decodeVarint_encodeVarint 9 _ _ htag]
  simp only [hnumber, htype, hpos, hlt, and_self, if_true, WireValue.read_write hfits,
    Option.map_some]

theorem length_writeField (field : WireField WireContent) :
    (writeField field).length = varintSize 9 (8 * field.1 + field.2.wireType) + field.2.size := by
  rw [writeField, List.length_append, length_encodeVarint, field.2.length_write]

theorem varintSize_pos (more n : Nat) : 0 < varintSize more n := by
  unfold varintSize
  split
  · exact Nat.one_pos
  · split
    · exact Nat.one_pos
    · exact Nat.succ_pos _

/-- Fields written one after the other are read back in order. -/
theorem readFields_flatMap (fields : List (WireField WireContent))
    (hwritable : ∀ field ∈ fields, Writable field) (more : Nat)
    (hmore : (fields.flatMap writeField).length ≤ more) :
    readFields more (fields.flatMap writeField) = some fields := by
  induction fields generalizing more with
  | nil => rw [List.flatMap_nil, readFields]
  | cons field fields ih =>
      obtain ⟨hfirst, hrest⟩ := List.forall_mem_cons.mp hwritable
      have hpos : 0 < (writeField field).length := by
        rw [length_writeField]
        exact Nat.add_pos_left (varintSize_pos 9 _) _
      rw [List.flatMap_cons] at hmore ⊢
      rw [List.length_append] at hmore
      -- every field takes a byte at least, so the count is enough
      obtain ⟨more, rfl⟩ : ∃ k, more = k + 1 := ⟨more - 1, by omega⟩
      cases hbytes : writeField field ++ fields.flatMap writeField with
      | nil =>
          have hnil := congrArg List.length hbytes
          rw [List.length_append, List.length_nil] at hnil
          omega
      | cons b bytes =>
          rw [readFields, ← hbytes, readField_writeField hfirst]
          simp only [ih hrest more (by omega), Option.map_some]

theorem readField_writable {bytes rest : List UInt8} {field : WireField WireContent}
    (h : readField bytes = some (field, rest)) : Writable field := by
  unfold readField at h
  split at h
  · cases h
  · split at h
    · next hnumber =>
        obtain ⟨read, hread, heq⟩ := Option.map_eq_some_iff.mp h
        cases heq
        exact ⟨hnumber.1, hnumber.2, WireValue.read_fits hread⟩
    · cases h

theorem readFields_writable {more : Nat} {bytes : List UInt8}
    {fields : List (WireField WireContent)} (h : readFields more bytes = some fields) :
    ∀ field ∈ fields, Writable field := by
  induction more generalizing bytes fields with
  | zero =>
      cases bytes with
      | nil =>
          obtain rfl := Option.some.inj h
          exact fun field hfield => absurd hfield List.not_mem_nil
      | cons b bytes => cases h
  | succ more ih =>
      cases bytes with
      | nil =>
          obtain rfl := Option.some.inj h
          exact fun field hfield => absurd hfield List.not_mem_nil
      | cons b bytes =>
          rw [readFields] at h
          split at h
          · cases h
          · next field rest hread =>
              obtain ⟨others, hothers, rfl⟩ := Option.map_eq_some_iff.mp h
              exact List.forall_mem_cons.mpr ⟨readField_writable hread, ih hothers⟩

/-- The runtime of the wire format. -/
def varintRuntime : WireRuntime where
  Content := WireContent
  write := writeField
  sizePlusOne value := 1 + varintSize 9 value
  sizeUnknown field := varintSize 9 (8 * field.1 + field.2.wireType) + field.2.size
  read bytes := readFields bytes.length bytes
  length_write number value hnumber _ := by
    have htag : varintSize 9 (8 * number + 0) = 1 := if_pos (by omega)
    rw [length_writeField]
    exact congrArg (· + varintSize 9 value) htag
  length_unknown field _ := length_writeField field
  read_write fields hwritable := readFields_flatMap fields hwritable _ (Nat.le_refl _)
  read_writable _ _ h := readFields_writable h

end Library
end FlashReduce
