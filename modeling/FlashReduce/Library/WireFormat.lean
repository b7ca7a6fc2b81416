import FlashReduce.Library.WireRuntime
import Mathlib.Data.List.Nodup

/-!
# Messages of numeric fields on the wire

A message of unsigned fields is written as the sequence of its fields that are not zero,
followed by its unknown fields.  Reading sets the fields one after the other, so a later
value of a field replaces an earlier one, and keeps what the message type does not know: a
number that it does not have, or a number of its own with another wire type than a varint.

* `Layout` is a message type: its fields with their numbers and widths, in the three
  orders in which they are written, counted and merged.
* `Message` is an object of the type, its known part and its unknown fields.
* `Layout.faithful` is what holds of every message type: the counted size is the
  number of bytes, a message is read back, and the bytes of two messages in a row are
  those of the merged message.
-/

namespace FlashReduce
namespace Library

/-! ### Message types -/

/-- A field of a message type: its number, its width, and how it is read and set. -/
structure FieldSpec (M : Type) where
  number : Nat
  bits : Nat
  get : M → Nat
  set : Nat → M → M
  number_pos : 0 < number
  number_lt : number < 16
  bits_le : bits ≤ 64
  get_lt : ∀ m, get m < 2 ^ bits
  get_set : ∀ value m, get (set value m) = value % 2 ^ bits

/-- A `uint32` field. -/
def uint32Field {M : Type} (number : Nat) (get : M → UInt32) (set : UInt32 → M → M)
    (number_pos : 0 < number := by decide) (number_lt : number < 16 := by decide)
    (get_set : ∀ value m, get (set value m) = value := by intros; rfl) : FieldSpec M where
  number := number
  bits := 32
  get m := (get m).toNat
  set value m := set (UInt32.ofNat value) m
  number_pos := number_pos
  number_lt := number_lt
  bits_le := by decide
  get_lt m := (get m).toNat_lt
  get_set value m := by rw [get_set, UInt32.toNat_ofNat']

/-- A `uint64` field. -/
def uint64Field {M : Type} (number : Nat) (get : M → UInt64) (set : UInt64 → M → M)
    (number_pos : 0 < number := by decide) (number_lt : number < 16 := by decide)
    (get_set : ∀ value m, get (set value m) = value := by intros; rfl) : FieldSpec M where
  number := number
  bits := 64
  get m := (get m).toNat
  set value m := set (UInt64.ofNat value) m
  number_pos := number_pos
  number_lt := number_lt
  bits_le := by decide
  get_lt m := (get m).toNat_lt
  get_set value m := by rw [get_set, UInt64.toNat_ofNat']

theorem FieldSpec.writable {M Content : Type} (f : FieldSpec M) (m : M) :
    Writable (f.number, (.varint (f.get m) : WireValue Content)) :=
  ⟨f.number_pos, Nat.lt_trans f.number_lt (by decide), Nat.lt_of_lt_of_le (f.get_lt m)
    (Nat.pow_le_pow_right (by decide) f.bits_le)⟩

/-- A message type.  Its functions go over the fields in three orders, and `clear` has
zero in all of them. -/
structure Layout (M : Type) where
  fields : List (FieldSpec M)
  sizeFields : List (FieldSpec M)
  mergeFields : List (FieldSpec M)
  clear : M
  size_perm : sizeFields.Perm fields
  merge_perm : mergeFields.Perm fields
  numbers : (fields.map FieldSpec.number).Nodup
  get_clear : ∀ f ∈ fields, f.get clear = 0
  get_set_of_ne : ∀ f ∈ fields, ∀ g ∈ fields, f.number ≠ g.number → ∀ value m,
    g.get (f.set value m) = g.get m
  ext : ∀ a b, (∀ f ∈ fields, f.get a = f.get b) → a = b

variable {M Content : Type}

/-- The bytes of the fields that are not zero. -/
def serializeFields (rt : WireRuntime) (fields : List (FieldSpec M)) (m : M) : List UInt8 :=
  fields.flatMap fun f => if f.get m = 0 then [] else rt.write (f.number, .varint (f.get m))

/-- The size that the fields add up to. -/
def sizeOfFields (rt : WireRuntime) (fields : List (FieldSpec M)) (m : M) : Nat :=
  fields.foldl (fun total f => if f.get m = 0 then total else total + rt.sizePlusOne (f.get m)) 0

/-- The fields of `b` that are not zero replace those of `a`. -/
def replaceFields (fields : List (FieldSpec M)) (a b : M) : M :=
  fields.foldl (fun a f => if f.get b = 0 then a else f.set (f.get b) a) a

/-- Set the field with a number, if the message has one. -/
def setField (fields : List (FieldSpec M)) (m : M) : WireField Content → M
  | (number, .varint value) =>
      match fields.find? fun f => f.number = number with
      | some f => f.set value m
      | none => m
  | (_, .other _) => m

/-- One of the fields is set from this one. -/
def knows (fields : List (FieldSpec M)) : WireField Content → Bool
  | (number, .varint _) => fields.any fun f => f.number = number
  | (_, .other _) => false

/-! ### Messages -/

/-- An object of a message type, with the fields that the type does not know in the order in
which they were read. -/
@[ext]
structure Message (rt : WireRuntime) (layout : Layout M) where
  known : M
  unknown : List (WireField rt.Content)
  writable : ∀ field ∈ unknown, Writable field
  foreign : ∀ field ∈ unknown, knows layout.fields field = false

/-- A message in which only fields of its type have been set. -/
def Message.ofKnown {rt : WireRuntime} {layout : Layout M} (m : M) : Message rt layout where
  known := m
  unknown := []
  writable _ hfield := absurd hfield List.not_mem_nil
  foreign _ hfield := absurd hfield List.not_mem_nil

namespace Layout

def serialize (layout : Layout M) (rt : WireRuntime) (m : Message rt layout) : List UInt8 :=
  serializeFields rt layout.fields m.known ++ m.unknown.flatMap rt.write

def byteSizeLong (layout : Layout M) (rt : WireRuntime) (m : Message rt layout) : Nat :=
  sizeOfFields rt layout.sizeFields m.known + (m.unknown.map rt.sizeUnknown).sum

/-- The fields of the type after a merge. -/
def mergeKnown (layout : Layout M) (toMsg fromMsg : M) : M :=
  replaceFields layout.mergeFields toMsg fromMsg

variable {rt : WireRuntime}

def mergeImpl (layout : Layout M) (toMsg fromMsg : Message rt layout) : Message rt layout where
  known := layout.mergeKnown toMsg.known fromMsg.known
  unknown := toMsg.unknown ++ fromMsg.unknown
  writable := List.forall_mem_append.mpr ⟨toMsg.writable, fromMsg.writable⟩
  foreign := List.forall_mem_append.mpr ⟨toMsg.foreign, fromMsg.foreign⟩

/-- Clear the message and merge, unless the two are one object. -/
def copyFrom (layout : Layout M) (same : Bool) (toMsg fromMsg : Message rt layout) :
    Message rt layout :=
  if same then toMsg else layout.mergeImpl (.ofKnown layout.clear) fromMsg

/-- The message that the fields of some bytes are. -/
def received (layout : Layout M) (written : List (WireField rt.Content))
    (hwritable : ∀ field ∈ written, Writable field) : Message rt layout where
  known := written.foldl (setField layout.fields) layout.clear
  unknown := written.filter fun field => !knows layout.fields field
  writable field hfield := hwritable field (List.mem_of_mem_filter hfield)
  foreign field hfield := by simpa using List.of_mem_filter hfield

/-- Read a message from some bytes. -/
def parse (layout : Layout M) (rt : WireRuntime) (bytes : List UInt8) :
    Option (Message rt layout) :=
  match h : rt.read bytes with
  | none => none
  | some written => some (layout.received written (rt.read_writable bytes written h))

/-! ### Writing -/

/-- The fields of a message type that are written, with their values. -/
def entries (fields : List (FieldSpec M)) (m : M) : List (WireField Content) :=
  fields.filterMap fun f => if f.get m = 0 then none else some (f.number, .varint (f.get m))

theorem serializeFields_eq (rt : WireRuntime) (fields : List (FieldSpec M)) (m : M) :
    serializeFields rt fields m = (entries fields m).flatMap rt.write := by
  unfold serializeFields entries
  induction fields with
  | nil => rfl
  | cons f fields ih =>
      rw [List.flatMap_cons, List.filterMap_cons, ih]
      by_cases hzero : f.get m = 0
      · rw [if_pos hzero, if_pos hzero, List.nil_append]
      · rw [if_neg hzero, if_neg hzero, List.flatMap_cons]

theorem mem_entries {fields : List (FieldSpec M)} {m : M} {field : WireField Content} :
    field ∈ entries fields m ↔
      ∃ f ∈ fields, f.get m ≠ 0 ∧ field = (f.number, .varint (f.get m)) := by
  rw [entries, List.mem_filterMap]
  constructor
  · rintro ⟨f, hf, hsome⟩
    split at hsome
    · cases hsome
    · next hzero => exact ⟨f, hf, hzero, (Option.some.inj hsome).symm⟩
  · rintro ⟨f, hf, hzero, rfl⟩
    exact ⟨f, hf, if_neg hzero⟩

theorem entries_writable (fields : List (FieldSpec M)) (m : M) :
    ∀ field ∈ (entries fields m : List (WireField Content)), Writable field := by
  intro field hfield
  obtain ⟨f, -, -, rfl⟩ := mem_entries.mp hfield
  exact f.writable m

theorem entries_known (fields : List (FieldSpec M)) (m : M) :
    ∀ field ∈ (entries fields m : List (WireField Content)), knows fields field = true := by
  intro field hfield
  obtain ⟨f, hf, -, rfl⟩ := mem_entries.mp hfield
  exact List.any_eq_true.mpr ⟨f, hf, decide_eq_true rfl⟩

/-- The fields of a message, as they are written. -/
def wireFields (layout : Layout M) (m : Message rt layout) : List (WireField rt.Content) :=
  entries layout.fields m.known ++ m.unknown

theorem serialize_eq (layout : Layout M) (m : Message rt layout) :
    layout.serialize rt m = (layout.wireFields m).flatMap rt.write := by
  rw [serialize, serializeFields_eq, wireFields, List.flatMap_append]

theorem wireFields_writable (layout : Layout M) (m : Message rt layout) :
    ∀ field ∈ layout.wireFields m, Writable field :=
  List.forall_mem_append.mpr ⟨entries_writable layout.fields m.known, m.writable⟩

theorem sizeOfFields_eq (rt : WireRuntime) (fields : List (FieldSpec M)) (m : M) :
    sizeOfFields rt fields m =
      (fields.map fun f => if f.get m = 0 then 0 else rt.sizePlusOne (f.get m)).sum := by
  have hfold (total : Nat) :
      fields.foldl (fun total f =>
          if f.get m = 0 then total else total + rt.sizePlusOne (f.get m)) total =
        total + (fields.map fun f => if f.get m = 0 then 0 else rt.sizePlusOne (f.get m)).sum := by
    induction fields generalizing total with
    | nil => rfl
    | cons f fields ih =>
        rw [List.foldl_cons, ih, List.map_cons, List.sum_cons]
        split <;> omega
  rw [sizeOfFields, hfold, Nat.zero_add]

/-- The size is counted in another order than the fields are written. -/
theorem byteSizeLong_eq (layout : Layout M) (m : Message rt layout) :
    layout.byteSizeLong rt m = (layout.serialize rt m).length := by
  have hknown : sizeOfFields rt layout.sizeFields m.known =
      (serializeFields rt layout.fields m.known).length := by
    rw [sizeOfFields_eq, (layout.size_perm.map _).sum_nat, serializeFields, List.length_flatMap]
    refine congrArg List.sum (List.map_congr_left fun f _ => ?_)
    split
    · rfl
    · exact (rt.length_write _ _ f.number_lt (f.writable m.known)).symm
  have hunknown : (m.unknown.map rt.sizeUnknown).sum = (m.unknown.flatMap rt.write).length := by
    rw [List.length_flatMap]
    exact congrArg List.sum (List.map_congr_left fun field hfield =>
      (rt.length_unknown field (m.writable field hfield)).symm)
  rw [byteSizeLong, serialize, List.length_append, hknown, hunknown]

/-! ### Merging -/

theorem number_inj (layout : Layout M) {f g : FieldSpec M} (hf : f ∈ layout.fields)
    (hg : g ∈ layout.fields) (heq : f.number = g.number) : f = g :=
  List.inj_on_of_nodup_map layout.numbers hf hg heq

open Classical in
/-- A field of the result is the one of `b` if it has been reached and is not zero. -/
theorem get_replaceFields (layout : Layout M) {fields : List (FieldSpec M)}
    (hfields : ∀ f ∈ fields, f ∈ layout.fields) {g : FieldSpec M} (hg : g ∈ layout.fields)
    (a b : M) :
    g.get (replaceFields fields a b) =
      if g ∈ fields ∧ g.get b ≠ 0 then g.get b else g.get a := by
  unfold replaceFields
  induction fields generalizing a with
  | nil => simp
  | cons f fields ih =>
      obtain ⟨hf, hrest⟩ := List.forall_mem_cons.mp hfields
      rw [List.foldl_cons, ih hrest]
      by_cases hsame : f.number = g.number
      · obtain rfl := layout.number_inj hf hg hsame
        by_cases hzero : f.get b = 0
        · simp [hzero]
        · have hset := f.get_set (f.get b) a
          rw [Nat.mod_eq_of_lt (f.get_lt b)] at hset
          simp [hzero, hset]
      · have hne : g ≠ f := fun heq => hsame (congrArg FieldSpec.number heq.symm)
        have hkept : g.get (if f.get b = 0 then a else f.set (f.get b) a) = g.get a := by
          split
          · rfl
          · exact layout.get_set_of_ne f hf g hg hsame _ a
        simp only [List.mem_cons, hne, false_or, hkept]

/-- Field by field, a message that is merged in replaces what it sets. -/
theorem get_mergeKnown (layout : Layout M) {g : FieldSpec M} (hg : g ∈ layout.fields) (a b : M) :
    g.get (layout.mergeKnown a b) = if g.get b = 0 then g.get a else g.get b := by
  rw [mergeKnown, layout.get_replaceFields (fun f hf => layout.merge_perm.mem_iff.mp hf) hg]
  by_cases hzero : g.get b = 0
  · simp [hzero]
  · simp [hzero, layout.merge_perm.mem_iff.mpr hg]

theorem mergeKnown_clear_left (layout : Layout M) (m : M) :
    layout.mergeKnown layout.clear m = m := by
  refine layout.ext _ _ fun g hg => ?_
  rw [layout.get_mergeKnown hg, layout.get_clear g hg]
  split
  · next hzero => exact hzero.symm
  · rfl

theorem mergeImpl_clear_left (layout : Layout M) (m : Message rt layout) :
    layout.mergeImpl (.ofKnown layout.clear) m = m :=
  Message.ext (layout.mergeKnown_clear_left m.known) (List.nil_append m.unknown)

theorem mergeImpl_clear_right (layout : Layout M) (m : Message rt layout) :
    layout.mergeImpl m (.ofKnown layout.clear) = m := by
  refine Message.ext (layout.ext _ _ fun g hg => ?_) (List.append_nil m.unknown)
  exact (layout.get_mergeKnown hg _ _).trans (if_pos (layout.get_clear g hg))

theorem mergeImpl_assoc (layout : Layout M) (a b c : Message rt layout) :
    layout.mergeImpl (layout.mergeImpl a b) c = layout.mergeImpl a (layout.mergeImpl b c) := by
  refine Message.ext (layout.ext _ _ fun g hg => ?_) (List.append_assoc _ _ _)
  simp only [mergeImpl, layout.get_mergeKnown hg]
  by_cases hc : g.get c.known = 0 <;> simp [hc]

/-- Merging twice changes no field of the type. -/
theorem mergeKnown_self (layout : Layout M) (m : M) : layout.mergeKnown m m = m := by
  refine layout.ext _ _ fun g hg => ?_
  rw [layout.get_mergeKnown hg, ite_self]

/-- A copy is the message copied, whatever the target held. -/
theorem copyFrom_eq (layout : Layout M) {same : Bool} {toMsg fromMsg : Message rt layout}
    (hsame : same = true → toMsg = fromMsg) : layout.copyFrom same toMsg fromMsg = fromMsg := by
  unfold copyFrom
  split
  · next h => exact hsame h
  · exact layout.mergeImpl_clear_left fromMsg

/-! ### Reading -/

theorem setField_number (layout : Layout M) {f : FieldSpec M} (hf : f ∈ layout.fields) (value : Nat)
    (m : M) : setField layout.fields m (f.number, (.varint value : WireValue Content)) =
      f.set value m := by
  have hfind : layout.fields.find? (fun g => g.number = f.number) = some f := by
    cases h : layout.fields.find? (fun g => g.number = f.number) with
    | none => exact absurd (List.find?_eq_none.mp h f hf) (by simp)
    | some g =>
        have heq : g.number = f.number := by simpa using List.find?_some h
        rw [layout.number_inj (List.mem_of_find?_eq_some h) hf heq]
  simp only [setField, hfind]

/-- Setting the fields that were written is merging. -/
theorem foldl_setField_entries (layout : Layout M) (a b : M) :
    (entries layout.fields b : List (WireField Content)).foldl (setField layout.fields) a =
      layout.mergeKnown a b := by
  have hreplace (fields : List (FieldSpec M)) (hfields : ∀ f ∈ fields, f ∈ layout.fields) (a : M) :
      (entries fields b : List (WireField Content)).foldl (setField layout.fields) a =
        replaceFields fields a b := by
    unfold entries replaceFields
    induction fields generalizing a with
    | nil => rfl
    | cons f fields ih =>
        obtain ⟨hf, hrest⟩ := List.forall_mem_cons.mp hfields
        rw [List.filterMap_cons, List.foldl_cons]
        by_cases hzero : f.get b = 0
        · rw [if_pos hzero, if_pos hzero]
          exact ih hrest a
        · rw [if_neg hzero, if_neg hzero, List.foldl_cons, layout.setField_number hf]
          exact ih hrest _
  -- the order of the fields makes no difference
  rw [hreplace layout.fields (fun _ hf => hf)]
  refine layout.ext _ _ fun g hg => ?_
  rw [layout.get_mergeKnown hg, layout.get_replaceFields (fun _ hf => hf) hg]
  by_cases hzero : g.get b = 0
  · simp [hzero]
  · simp [hzero, hg]

/-- A field that the type does not know sets nothing. -/
theorem setField_foreign {fields : List (FieldSpec M)} {field : WireField Content}
    (hforeign : knows fields field = false) (m : M) : setField fields m field = m := by
  obtain ⟨number, value⟩ := field
  cases value with
  | varint value =>
      have hfind : fields.find? (fun f => f.number = number) = none := by
        refine List.find?_eq_none.mpr fun f hf heq => ?_
        rw [knows, List.any_eq_false] at hforeign
        exact hforeign f hf heq
      simp only [setField, hfind]
  | other content => rfl

theorem foldl_setField_known (fields : List (FieldSpec M)) (written : List (WireField Content))
    (m : M) :
    written.foldl (setField fields) m =
      (written.filter (knows fields)).foldl (setField fields) m := by
  induction written generalizing m with
  | nil => rfl
  | cons field written ih =>
      rw [List.foldl_cons, List.filter_cons]
      split
      · rw [List.foldl_cons, ih]
      · -- what is left out sets nothing
        next hforeign => rw [ih, setField_foreign (Bool.eq_false_iff.mpr hforeign)]

/-- Reading a message after another one is merging it into that. -/
theorem foldl_setField_wireFields (layout : Layout M) (m : Message rt layout) (start : M) :
    (layout.wireFields m).foldl (setField layout.fields) start =
      layout.mergeKnown start m.known := by
  have hforeign : m.unknown.filter (knows layout.fields) = [] :=
    List.filter_eq_nil_iff.mpr fun field hfield => by simp [m.foreign field hfield]
  rw [wireFields, List.foldl_append, layout.foldl_setField_entries, foldl_setField_known, hforeign,
    List.foldl_nil]

theorem filter_wireFields (layout : Layout M) (m : Message rt layout) :
    (layout.wireFields m).filter (fun field => !knows layout.fields field) = m.unknown := by
  have hknown : (entries layout.fields m.known : List (WireField rt.Content)).filter
      (fun field => !knows layout.fields field) = [] :=
    List.filter_eq_nil_iff.mpr fun field hfield => by simp [entries_known _ _ field hfield]
  have hforeign : m.unknown.filter (fun field => !knows layout.fields field) = m.unknown :=
    List.filter_eq_self.mpr fun field hfield => by simp [m.foreign field hfield]
  rw [wireFields, List.filter_append, hknown, hforeign, List.nil_append]

theorem parse_eq (layout : Layout M) {bytes : List UInt8} {written : List (WireField rt.Content)}
    (hread : rt.read bytes = some written) :
    layout.parse rt bytes =
      some (layout.received written (rt.read_writable bytes written hread)) := by
  unfold parse
  split
  · next hnone => rw [hread] at hnone; cases hnone
  · next other hsome =>
      obtain rfl := Option.some.inj (hread.symm.trans hsome)
      rfl

/-- What the functions of a message type have to do with each other. -/
structure Faithful (layout : Layout M) (rt : WireRuntime) : Prop where
  size : ∀ m : Message rt layout, layout.byteSizeLong rt m = (layout.serialize rt m).length
  parse_serialize : ∀ m : Message rt layout, layout.parse rt (layout.serialize rt m) = some m
  parse_append : ∀ a b : Message rt layout,
    layout.parse rt (layout.serialize rt a ++ layout.serialize rt b) =
      some (layout.mergeImpl a b)
  parse_interleaved : ∀ (written : List (WireField rt.Content)) (m : Message rt layout),
    (∀ field ∈ written, Writable field) →
    written.filter (knows layout.fields) = entries layout.fields m.known →
    written.filter (fun field => !knows layout.fields field) = m.unknown →
    layout.parse rt (written.flatMap rt.write) = some m
  copy : ∀ same (toMsg fromMsg : Message rt layout), (same = true → toMsg = fromMsg) →
    layout.copyFrom same toMsg fromMsg = fromMsg
  merge_assoc : ∀ a b c : Message rt layout,
    layout.mergeImpl (layout.mergeImpl a b) c = layout.mergeImpl a (layout.mergeImpl b c)
  merge_clear : ∀ m : Message rt layout, layout.mergeImpl (.ofKnown layout.clear) m = m ∧
    layout.mergeImpl m (.ofKnown layout.clear) = m
  merge_self : ∀ m : Message rt layout, (layout.mergeImpl m m).known = m.known

/-- The fields that are not known may stand anywhere between the others. -/
theorem parse_interleaved (layout : Layout M) {written : List (WireField rt.Content)}
    {m : Message rt layout} (hwritable : ∀ field ∈ written, Writable field)
    (hknown : written.filter (knows layout.fields) = entries layout.fields m.known)
    (hforeign : written.filter (fun field => !knows layout.fields field) = m.unknown) :
    layout.parse rt (written.flatMap rt.write) = some m := by
  rw [layout.parse_eq (rt.read_write written hwritable)]
  refine congrArg some (Message.ext ?_ hforeign)
  rw [received, foldl_setField_known, hknown, layout.foldl_setField_entries,
    layout.mergeKnown_clear_left]

theorem parse_serialize_append (layout : Layout M) (a b : Message rt layout) :
    layout.parse rt (layout.serialize rt a ++ layout.serialize rt b) =
      some (layout.mergeImpl a b) := by
  have hwritable : ∀ field ∈ layout.wireFields a ++ layout.wireFields b, Writable field :=
    List.forall_mem_append.mpr ⟨layout.wireFields_writable a, layout.wireFields_writable b⟩
  rw [serialize_eq, serialize_eq, ← List.flatMap_append,
    layout.parse_eq (rt.read_write _ hwritable)]
  refine congrArg some (Message.ext ?_ ?_)
  · simp only [received, mergeImpl, List.foldl_append, layout.foldl_setField_wireFields,
      layout.mergeKnown_clear_left]
  · simp only [received, mergeImpl, List.filter_append, layout.filter_wireFields]

theorem parse_serialize (layout : Layout M) (m : Message rt layout) :
    layout.parse rt (layout.serialize rt m) = some m := by
  rw [serialize_eq, layout.parse_eq (rt.read_write _ (layout.wireFields_writable m))]
  refine congrArg some (Message.ext ?_ (layout.filter_wireFields m))
  rw [received, layout.foldl_setField_wireFields, layout.mergeKnown_clear_left]

theorem faithful (layout : Layout M) (rt : WireRuntime) : layout.Faithful rt where
  size := layout.byteSizeLong_eq
  parse_serialize := layout.parse_serialize
  parse_append := layout.parse_serialize_append
  parse_interleaved _ _ hwritable hknown hforeign :=
    layout.parse_interleaved hwritable hknown hforeign
  copy _ _ _ hsame := layout.copyFrom_eq hsame
  merge_assoc := layout.mergeImpl_assoc
  merge_clear m := ⟨layout.mergeImpl_clear_left m, layout.mergeImpl_clear_right m⟩
  merge_self m := layout.mergeKnown_self m.known

end Layout
end Library
end FlashReduce
