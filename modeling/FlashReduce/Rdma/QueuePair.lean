import FlashReduce.Controller.SessionExchange

/-!
# Connecting two queue pairs

`modify_qp_to_rts` takes a queue pair to the state in which it can send and receive, with
the `QpInfo` that the other endpoint has sent.  It works in two calls of `ibv_modify_qp`,
with separate code for the unreliable and the reliable transport.

* `QpAttr` are the attributes of a queue pair, and `QpAttr.apply` what the mask of
  `ibv_modify_qp` selects.  `ibv_modify_qp` itself is a parameter: `AppliesMask` says that
  a call that returns 0 applies exactly the selected attributes.
* `psn_agree_iff`: two connected endpoints agree on their packet sequence numbers exactly
  when the transport is reliable or both exchanged numbers are 0, because the unreliable
  code expects packets from the exchanged number on and sends them from 0 on.
-/

namespace FlashReduce
namespace Rdma

open Controller

/-! ### Attributes -/

/-- `union ibv_gid` -/
structure Gid where
  subnetPrefix : UInt64
  interfaceId : UInt64
  deriving DecidableEq

/-- The field `gid` of `QpInfo`. -/
def gidOf (info : QpInfo) : Gid := ⟨info.gidSubnetPrefix, info.gidInterfaceId⟩

inductive IbvMtu
  | mtu256
  | mtu512
  | mtu1024
  | mtu2048
  | mtu4096
  deriving DecidableEq

inductive QpState
  | reset
  | init
  | rtr
  | rts
  deriving DecidableEq

/-- `struct ibv_global_route`; a field that is not given is 0. -/
structure GlobalRoute where
  dgid : Gid := ⟨0, 0⟩
  flowLabel : UInt32 := 0
  sgidIndex : UInt8 := 0
  hopLimit : UInt8 := 0
  trafficClass : UInt8 := 0
  deriving DecidableEq

/-- `struct ibv_ah_attr` -/
structure AhAttr where
  grh : GlobalRoute := {}
  dlid : UInt16 := 0
  sl : UInt8 := 0
  srcPathBits : UInt8 := 0
  isGlobal : UInt8 := 0
  portNum : UInt8 := 0
  deriving DecidableEq

/-- The fields of `struct ibv_qp_attr` that are set or selected; the zero of `path_mtu` is no
MTU. -/
structure QpAttr where
  qpState : QpState := .reset
  pathMtu : Option IbvMtu := none
  rqPsn : UInt32 := 0
  sqPsn : UInt32 := 0
  destQpNum : UInt32 := 0
  ahAttr : AhAttr := {}
  maxRdAtomic : UInt8 := 0
  maxDestRdAtomic : UInt8 := 0
  minRnrTimer : UInt8 := 0
  timeout : UInt8 := 0
  retryCnt : UInt8 := 0
  rnrRetry : UInt8 := 0
  deriving DecidableEq

/-- `enum ibv_qp_attr_mask` -/
inductive AttrMask
  | state
  | av
  | pathMtu
  | destQpn
  | rqPsn
  | sqPsn
  | maxQpRdAtomic
  | maxDestRdAtomic
  | minRnrTimer
  | timeout
  | retryCnt
  | rnrRetry
  deriving DecidableEq

/-- The attributes of a queue pair after those that the mask selects are applied. -/
def QpAttr.apply (qp attr : QpAttr) (mask : List AttrMask) : QpAttr where
  qpState := if .state ∈ mask then attr.qpState else qp.qpState
  pathMtu := if .pathMtu ∈ mask then attr.pathMtu else qp.pathMtu
  rqPsn := if .rqPsn ∈ mask then attr.rqPsn else qp.rqPsn
  sqPsn := if .sqPsn ∈ mask then attr.sqPsn else qp.sqPsn
  destQpNum := if .destQpn ∈ mask then attr.destQpNum else qp.destQpNum
  ahAttr := if .av ∈ mask then attr.ahAttr else qp.ahAttr
  maxRdAtomic := if .maxQpRdAtomic ∈ mask then attr.maxRdAtomic else qp.maxRdAtomic
  maxDestRdAtomic := if .maxDestRdAtomic ∈ mask then attr.maxDestRdAtomic else qp.maxDestRdAtomic
  minRnrTimer := if .minRnrTimer ∈ mask then attr.minRnrTimer else qp.minRnrTimer
  timeout := if .timeout ∈ mask then attr.timeout else qp.timeout
  retryCnt := if .retryCnt ∈ mask then attr.retryCnt else qp.retryCnt
  rnrRetry := if .rnrRetry ∈ mask then attr.rnrRetry else qp.rnrRetry

/-- `ibv_modify_qp`: the return code and the attributes after the call, from the attributes
before it, the given attributes and the mask. -/
abbrev ModifyQp := QpAttr → QpAttr → List AttrMask → Int × QpAttr

/-- A call that returns 0 has applied exactly the attributes that the mask selects. -/
def AppliesMask (ibvModifyQp : ModifyQp) : Prop :=
  ∀ qp attr mask, (ibvModifyQp qp attr mask).1 = 0 →
    (ibvModifyQp qp attr mask).2 = qp.apply attr mask

/-! ### modify_qp_to_rts -/

def kMinRnrTimer : UInt8 := 0x12
def kTimeout : UInt8 := 14
def kRetryCount : UInt8 := 7
def kRnrRetry : UInt8 := 7
def kMaxDestRdAtomic : UInt8 := 0
def kMaxRdAtomic : UInt8 := 1
/-- `IB_PORT` -/
def ibPort : UInt8 := 1
/-- `GID_INDEX` -/
def gidIndex : UInt8 := 3

variable (ibvModifyQp : ModifyQp)

/-- `modify_qp_to_rtr_uc` -/
def modifyQpToRtrUc (qp : QpAttr) (neighborQpInfo : QpInfo) (mtu : IbvMtu) : Int × QpAttr :=
  ibvModifyQp qp
    { qpState := .rtr
      destQpNum := neighborQpInfo.qpNum
      rqPsn := neighborQpInfo.psn
      maxDestRdAtomic := kMaxDestRdAtomic
      minRnrTimer := kMinRnrTimer
      pathMtu := some mtu
      ahAttr :=
        { isGlobal := 1
          dlid := neighborQpInfo.lid
          sl := 0
          srcPathBits := 0
          portNum := ibPort
          grh :=
            { dgid := gidOf neighborQpInfo
              sgidIndex := gidIndex
              flowLabel := 0
              hopLimit := 0xFF
              trafficClass := 0 } } }
    [.state, .pathMtu, .destQpn, .rqPsn, .av]

/-- `modify_qp_to_rts_uc` -/
def modifyQpToRtsUc (qp : QpAttr) : Int × QpAttr :=
  ibvModifyQp qp
    { qpState := .rts
      sqPsn := 0
      timeout := kTimeout
      retryCnt := kRetryCount
      rnrRetry := kRnrRetry
      maxRdAtomic := kMaxRdAtomic }
    [.state, .sqPsn]

/-- `modify_qp_to_rts_rc`; a failed `CHECK` ends the process. -/
def modifyQpToRtsRc (qp : QpAttr) (neighborQpInfo : QpInfo) (mtu : IbvMtu) :
    Option (Int × QpAttr) :=
  let (ret, qp) := ibvModifyQp qp
    { qpState := .rtr
      pathMtu := some mtu
      rqPsn := 0
      destQpNum := neighborQpInfo.qpNum
      ahAttr :=
        { dlid := neighborQpInfo.lid
          sl := 0
          srcPathBits := 0
          isGlobal := 1
          portNum := ibPort
          grh :=
            { dgid := gidOf neighborQpInfo
              sgidIndex := gidIndex
              hopLimit := 0xFF
              flowLabel := 0
              trafficClass := 0 } }
      maxDestRdAtomic := 1
      minRnrTimer := 0x12 }
    [.state, .av, .pathMtu, .destQpn, .rqPsn, .maxDestRdAtomic, .minRnrTimer]
  if ret = 0 then
    let (ret, qp) := ibvModifyQp qp
      { qpState := .rts
        sqPsn := 0
        maxRdAtomic := 1
        timeout := 14
        retryCnt := 7
        rnrRetry := 7 }
      [.state, .timeout, .retryCnt, .rnrRetry, .sqPsn, .maxQpRdAtomic]
    if ret = 0 then some (0, qp) else none
  else none

/-- `modify_qp_to_rts` -/
def modifyQpToRts (qp : QpAttr) (neighborQpInfo : QpInfo) (mtu : IbvMtu) (reliable : Int) :
    Option (Int × QpAttr) :=
  if reliable ≠ 0 then modifyQpToRtsRc ibvModifyQp qp neighborQpInfo mtu
  else
    let (ret, qp) := modifyQpToRtrUc ibvModifyQp qp neighborQpInfo mtu
    if ret = 0 then some (modifyQpToRtsUc ibvModifyQp qp) else none

/-! ### What a connected queue pair looks like -/

/-- The number of the first packet that an endpoint expects. -/
def expectedPsn (neighborQpInfo : QpInfo) (reliable : Int) : UInt32 :=
  if reliable ≠ 0 then 0 else neighborQpInfo.psn

/-- The attributes of a queue pair that is connected to the endpoint that a `QpInfo`
describes. -/
structure Connected (neighborQpInfo : QpInfo) (rqPsn : UInt32) (qp : QpAttr) : Prop where
  qpState : qp.qpState = .rts
  rqPsn : qp.rqPsn = rqPsn
  sqPsn : qp.sqPsn = 0
  destQpNum : qp.destQpNum = neighborQpInfo.qpNum
  dgid : qp.ahAttr.grh.dgid = gidOf neighborQpInfo

variable {ibvModifyQp} {qp qp' : QpAttr} {neighborQpInfo : QpInfo} {mtu : IbvMtu}

/-- The reliable code uses the number 0 in both directions. -/
theorem modifyQpToRtsRc_connected (happlies : AppliesMask ibvModifyQp)
    (h : modifyQpToRtsRc ibvModifyQp qp neighborQpInfo mtu = some (0, qp')) :
    Connected neighborQpInfo 0 qp' := by
  unfold modifyQpToRtsRc at h
  dsimp only at h
  split at h
  · next hrtr =>
    split at h
    · next hrts =>
      have hafter := happlies _ _ _ hrts
      rw [happlies _ _ _ hrtr] at hafter
      obtain rfl : _ = qp' := (Prod.mk.inj (Option.some.inj h)).2
      rw [happlies _ _ _ hrtr, hafter]
      exact ⟨rfl, rfl, rfl, rfl, rfl⟩
    · cases h
  · cases h

/-- The unreliable code receives from the number of the neighbour on, and sends from 0 on. -/
theorem modifyQpToRtsUc_connected (happlies : AppliesMask ibvModifyQp)
    (hrtr : (modifyQpToRtrUc ibvModifyQp qp neighborQpInfo mtu).1 = 0)
    (hrts : modifyQpToRtsUc ibvModifyQp (modifyQpToRtrUc ibvModifyQp qp neighborQpInfo mtu).2 =
      (0, qp')) : Connected neighborQpInfo neighborQpInfo.psn qp' := by
  have hafter := happlies _ _ _ (congrArg Prod.fst hrts)
  rw [show (modifyQpToRtrUc ibvModifyQp qp neighborQpInfo mtu).2 = _ from
    happlies _ _ _ hrtr] at hafter
  obtain rfl : _ = qp' := congrArg Prod.snd hrts
  unfold modifyQpToRtsUc
  rw [show (modifyQpToRtrUc ibvModifyQp qp neighborQpInfo mtu).2 = _ from
    happlies _ _ _ hrtr, hafter]
  exact ⟨rfl, rfl, rfl, rfl, rfl⟩

theorem modifyQpToRts_connected {reliable : Int} (happlies : AppliesMask ibvModifyQp)
    (h : modifyQpToRts ibvModifyQp qp neighborQpInfo mtu reliable = some (0, qp')) :
    Connected neighborQpInfo (expectedPsn neighborQpInfo reliable) qp' := by
  unfold modifyQpToRts at h
  unfold expectedPsn
  by_cases hreliable : reliable ≠ 0
  · rw [if_pos hreliable] at h ⊢
    exact modifyQpToRtsRc_connected happlies h
  · rw [if_neg hreliable] at h ⊢
    dsimp only at h
    split at h
    · next hrtr => exact modifyQpToRtsUc_connected happlies hrtr (Option.some.inj h)
    · cases h

/-! ### The two ends of a connection -/

/-- Each endpoint receives from the number on from which the other one sends, and sends to the
queue pair and the address of the other one. -/
structure Agree (a b : QpInfo) (endA endB : QpAttr) : Prop where
  psn_a : endA.rqPsn = endB.sqPsn
  psn_b : endB.rqPsn = endA.sqPsn
  destQpNum_a : endA.destQpNum = b.qpNum
  destQpNum_b : endB.destQpNum = a.qpNum
  dgid_a : endA.ahAttr.grh.dgid = gidOf b
  dgid_b : endB.ahAttr.grh.dgid = gidOf a

variable {a b : QpInfo} {qpA qpB endA endB : QpAttr} {mtuA mtuB : IbvMtu} {reliable : Int}

/-- **Sequence numbers.**  After both endpoints have run `modify_qp_to_rts` with the `QpInfo`
of the other one, they agree exactly when the transport is reliable or both numbers in the
`QpInfo`s are 0. -/
theorem psn_agree_iff (happlies : AppliesMask ibvModifyQp)
    (hA : modifyQpToRts ibvModifyQp qpA b mtuA reliable = some (0, endA))
    (hB : modifyQpToRts ibvModifyQp qpB a mtuB reliable = some (0, endB)) :
    Agree a b endA endB ↔ reliable ≠ 0 ∨ a.psn = 0 ∧ b.psn = 0 := by
  have hendA := modifyQpToRts_connected happlies hA
  have hendB := modifyQpToRts_connected happlies hB
  have hpsn : Agree a b endA endB ↔
      expectedPsn b reliable = 0 ∧ expectedPsn a reliable = 0 := by
    constructor
    · intro h
      constructor
      · rw [← hendA.rqPsn, h.psn_a, hendB.sqPsn]
      · rw [← hendB.rqPsn, h.psn_b, hendA.sqPsn]
    · rintro ⟨hexpectedA, hexpectedB⟩
      refine ⟨?_, ?_, hendA.destQpNum, hendB.destQpNum, hendA.dgid, hendB.dgid⟩
      · rw [hendA.rqPsn, hexpectedA, hendB.sqPsn]
      · rw [hendB.rqPsn, hexpectedB, hendA.sqPsn]
  rw [hpsn]
  unfold expectedPsn
  by_cases hreliable : reliable ≠ 0
  · simp [hreliable]
  · rw [if_neg hreliable, if_neg hreliable, and_comm]
    exact (or_iff_right hreliable).symm

/-- An `ibv_modify_qp` that always succeeds. -/
def alwaysModifies : ModifyQp := fun qp attr mask => (0, qp.apply attr mask)

/-- The queue pair 17 with the first number 100. -/
def info17 : QpInfo := ⟨1, 4096, 17, 100, 1, 17, 0⟩

/-- The queue pair 18 with the first number 200. -/
def info18 : QpInfo := ⟨2, 8192, 18, 200, 1, 18, 0⟩

/-- Over the reliable transport two endpoints agree whatever numbers they exchange. -/
theorem psn_agree_reliable : ∃ endA endB : QpAttr,
    modifyQpToRts alwaysModifies {} info18 .mtu1024 1 = some (0, endA) ∧
      modifyQpToRts alwaysModifies {} info17 .mtu1024 1 = some (0, endB) ∧
        Agree info17 info18 endA endB := by
  refine ⟨_, _, rfl, rfl, ?_⟩
  have happlies : AppliesMask alwaysModifies := fun _ _ _ _ => rfl
  have hA : modifyQpToRts alwaysModifies {} info18 .mtu1024 1 = some (0, _) := rfl
  have hB : modifyQpToRts alwaysModifies {} info17 .mtu1024 1 = some (0, _) := rfl
  exact (psn_agree_iff happlies hA hB).mpr (.inl (by decide))

/-- Over the unreliable transport each of them drops the packets of the other one: it expects
the number that it was told, and they start with 0. -/
theorem psn_disagree_unreliable :
    ¬ ∀ endA endB : QpAttr,
      modifyQpToRts alwaysModifies {} info18 .mtu1024 0 = some (0, endA) →
        modifyQpToRts alwaysModifies {} info17 .mtu1024 0 = some (0, endB) →
          Agree info17 info18 endA endB := by
  intro hall
  have hequal := (hall _ _ rfl rfl).psn_a
  exact absurd hequal (by decide)

end Rdma
end FlashReduce
