import FlashReduce.Library.WireFormat

/-!
# The messages of the controller

The message types of the protocol with the controller, as the generated code has them:
the fields in the order in which they are written, and the orders in which their sizes
are added up and in which they are merged.  The three are one order except for
`RdmaSessionResponse`, whose sizes are added up, and whose fields are merged, in the
order in which the object stores them.
-/

namespace FlashReduce
namespace Wire

open Library

/-! ### `RdmaSessionRequest` -/

@[ext]
structure RdmaSessionRequest where
  sessionId : UInt32
  rank : UInt32
  numWorkers : UInt32
  root : UInt32
  mac : UInt64
  ipv4 : UInt32
  rkey : UInt32
  raddr : UInt64
  qpn : UInt32
  psn : UInt32
  gidSubnet : UInt64
  gidIface : UInt64
  lid : UInt32
  deriving DecidableEq

namespace RdmaSessionRequest

/-- Every field is zero. -/
def clear : RdmaSessionRequest := ⟨0, 0, 0, 0, 0, 0, 0, 0, 0, 0, 0, 0, 0⟩

def fields : List (FieldSpec RdmaSessionRequest) :=
  [uint32Field 1 sessionId fun value m => { m with sessionId := value },
    uint32Field 2 rank fun value m => { m with rank := value },
    uint32Field 3 numWorkers fun value m => { m with numWorkers := value },
    uint32Field 4 root fun value m => { m with root := value },
    uint64Field 5 mac fun value m => { m with mac := value },
    uint32Field 6 ipv4 fun value m => { m with ipv4 := value },
    uint32Field 7 rkey fun value m => { m with rkey := value },
    uint64Field 8 raddr fun value m => { m with raddr := value },
    uint32Field 9 qpn fun value m => { m with qpn := value },
    uint32Field 10 psn fun value m => { m with psn := value },
    uint64Field 11 gidSubnet fun value m => { m with gidSubnet := value },
    uint64Field 12 gidIface fun value m => { m with gidIface := value },
    uint32Field 13 lid fun value m => { m with lid := value }]

def layout : Layout RdmaSessionRequest where
  fields := fields
  sizeFields := fields
  mergeFields := fields
  clear := clear
  size_perm := .rfl
  merge_perm := .rfl
  numbers := by decide
  get_clear := by simp [fields, uint32Field, uint64Field, clear]
  get_set_of_ne := by simp [fields, uint32Field, uint64Field]
  ext := by
    intro a b h
    simpa [fields, uint32Field, uint64Field, UInt32.toNat_inj, UInt64.toNat_inj,
      RdmaSessionRequest.ext_iff] using h

end RdmaSessionRequest

/-! ### `RdmaSessionResponse` -/

@[ext]
structure RdmaSessionResponse where
  rkey : UInt32
  raddr : UInt64
  qpn : UInt32
  psn : UInt32
  gidSubnet : UInt64
  gidIface : UInt64
  lid : UInt32
  deriving DecidableEq

namespace RdmaSessionResponse

def clear : RdmaSessionResponse := ⟨0, 0, 0, 0, 0, 0, 0⟩

def rkeyField : FieldSpec RdmaSessionResponse :=
  uint32Field 2 rkey fun value m => { m with rkey := value }

def raddrField : FieldSpec RdmaSessionResponse :=
  uint64Field 3 raddr fun value m => { m with raddr := value }

def qpnField : FieldSpec RdmaSessionResponse :=
  uint32Field 4 qpn fun value m => { m with qpn := value }

def psnField : FieldSpec RdmaSessionResponse :=
  uint32Field 5 psn fun value m => { m with psn := value }

def gidSubnetField : FieldSpec RdmaSessionResponse :=
  uint64Field 13 gidSubnet fun value m => { m with gidSubnet := value }

def gidIfaceField : FieldSpec RdmaSessionResponse :=
  uint64Field 14 gidIface fun value m => { m with gidIface := value }

def lidField : FieldSpec RdmaSessionResponse :=
  uint32Field 15 lid fun value m => { m with lid := value }

/-- The order of the field numbers, in which the message is written. -/
def fields : List (FieldSpec RdmaSessionResponse) :=
  [rkeyField, raddrField, qpnField, psnField, gidSubnetField, gidIfaceField, lidField]

/-- The order in which the fields are stored, which `ByteSizeLong` and `MergeImpl` follow. -/
def storedFields : List (FieldSpec RdmaSessionResponse) :=
  [raddrField, rkeyField, qpnField, psnField, lidField, gidSubnetField, gidIfaceField]

theorem storedFields_perm : storedFields.Perm fields := by
  have hlast : ([lidField] ++ [gidSubnetField, gidIfaceField]).Perm
      ([gidSubnetField, gidIfaceField] ++ [lidField]) :=
    List.perm_append_comm
  exact (List.Perm.swap _ _ _).trans (.cons _ (.cons _ (.cons _ (.cons _ hlast))))

def layout : Layout RdmaSessionResponse where
  fields := fields
  sizeFields := storedFields
  mergeFields := storedFields
  clear := clear
  size_perm := storedFields_perm
  merge_perm := storedFields_perm
  numbers := by decide
  get_clear := by
    simp [fields, rkeyField, raddrField, qpnField, psnField, gidSubnetField, gidIfaceField,
      lidField, uint32Field, uint64Field, clear]
  get_set_of_ne := by
    simp [fields, rkeyField, raddrField, qpnField, psnField, gidSubnetField, gidIfaceField,
      lidField, uint32Field, uint64Field]
  ext := by
    intro a b h
    simpa [fields, rkeyField, raddrField, qpnField, psnField, gidSubnetField, gidIfaceField,
      lidField, uint32Field, uint64Field, UInt32.toNat_inj, UInt64.toNat_inj,
      RdmaSessionResponse.ext_iff] using h

end RdmaSessionResponse

/-! ### `BarrierRequest` -/

@[ext]
structure BarrierRequest where
  numWorkers : UInt32
  deriving DecidableEq

namespace BarrierRequest

def fields : List (FieldSpec BarrierRequest) :=
  [uint32Field 1 numWorkers fun value m => { m with numWorkers := value }]

def layout : Layout BarrierRequest where
  fields := fields
  sizeFields := fields
  mergeFields := fields
  clear := ⟨0⟩
  size_perm := .rfl
  merge_perm := .rfl
  numbers := by decide
  get_clear := by simp [fields, uint32Field]
  get_set_of_ne := by simp [fields, uint32Field]
  ext := by
    intro a b h
    simpa [fields, uint32Field, UInt32.toNat_inj, BarrierRequest.ext_iff] using h

end BarrierRequest

/-! ### `BroadcastRequest` -/

@[ext]
structure BroadcastRequest where
  value : UInt64
  rank : UInt32
  numWorkers : UInt32
  root : UInt32
  deriving DecidableEq

namespace BroadcastRequest

def fields : List (FieldSpec BroadcastRequest) :=
  [uint64Field 1 value fun value m => { m with value := value },
    uint32Field 2 rank fun value m => { m with rank := value },
    uint32Field 3 numWorkers fun value m => { m with numWorkers := value },
    uint32Field 4 root fun value m => { m with root := value }]

def layout : Layout BroadcastRequest where
  fields := fields
  sizeFields := fields
  mergeFields := fields
  clear := ⟨0, 0, 0, 0⟩
  size_perm := .rfl
  merge_perm := .rfl
  numbers := by decide
  get_clear := by simp [fields, uint32Field, uint64Field]
  get_set_of_ne := by simp [fields, uint32Field, uint64Field]
  ext := by
    intro a b h
    simpa [fields, uint32Field, uint64Field, UInt32.toNat_inj, UInt64.toNat_inj,
      BroadcastRequest.ext_iff] using h

end BroadcastRequest

/-! ### `BroadcastResponse` -/

@[ext]
structure BroadcastResponse where
  value : UInt64
  deriving DecidableEq

namespace BroadcastResponse

def fields : List (FieldSpec BroadcastResponse) :=
  [uint64Field 1 value fun value m => { m with value := value }]

def layout : Layout BroadcastResponse where
  fields := fields
  sizeFields := fields
  mergeFields := fields
  clear := ⟨0⟩
  size_perm := .rfl
  merge_perm := .rfl
  numbers := by decide
  get_clear := by simp [fields, uint64Field]
  get_set_of_ne := by simp [fields, uint64Field]
  ext := by
    intro a b h
    simpa [fields, uint64Field, UInt64.toNat_inj, BroadcastResponse.ext_iff] using h

end BroadcastResponse

/-! ### The format -/

/-- Whatever the runtime, every message of the protocol, with its unknown fields, is counted
as it is written, read back as it was and merged by reading one after the other, and the
fields of a newer peer are kept without touching the others, wherever they stand. -/
theorem messages_faithful (rt : WireRuntime) :
    RdmaSessionRequest.layout.Faithful rt ∧ RdmaSessionResponse.layout.Faithful rt ∧
      BarrierRequest.layout.Faithful rt ∧ BroadcastRequest.layout.Faithful rt ∧
      BroadcastResponse.layout.Faithful rt :=
  ⟨Layout.faithful _ rt, Layout.faithful _ rt, Layout.faithful _ rt, Layout.faithful _ rt,
    Layout.faithful _ rt⟩

example : RdmaSessionResponse.layout.serialize varintRuntime (.ofKnown ⟨0, 300, 0, 0, 0, 0, 7⟩) =
    [24, 0xAC, 0x02, 120, 7] := by decide

end Wire
end FlashReduce
