import FlashReduce.Rdma.QueuePair

/-!
# Which transitions the driver accepts

`ibv_modify_qp` documents, for each transition and each transport, the attributes that a call
has to select and those that it may select; it fails when the mask does not match.
`Conforms` says so of the two transitions of `modify_qp_to_rts`.

`transport_iff`: from the state INIT, `modify_qp_to_rts` connects the queue pair exactly when
its argument `reliable` names the transport of the queue pair, and else a `CHECK` fails.
-/

namespace FlashReduce
namespace Rdma

open Controller

/-- `IBV_QPT_RC` and `IBV_QPT_UC` -/
inductive QpType
  | rc
  | uc
  deriving DecidableEq

/-- The attributes that a transition into the state needs. -/
def required : QpType → QpState → List AttrMask
  | .uc, .rtr => [.av, .pathMtu, .destQpn, .rqPsn]
  | .rc, .rtr => [.av, .pathMtu, .destQpn, .rqPsn, .maxDestRdAtomic, .minRnrTimer]
  | .uc, .rts => [.sqPsn]
  | .rc, .rts => [.timeout, .retryCnt, .rnrRetry, .sqPsn, .maxQpRdAtomic]
  | _, _ => []

/-- Those that it may change as well. -/
def optional : QpType → QpState → List AttrMask
  | .rc, .rts => [.minRnrTimer]
  | _, _ => []

/-- The mask of a transition into the state. -/
def MaskFits (type : QpType) (target : QpState) (mask : List AttrMask) : Prop :=
  required type target ⊆ mask ∧ mask ⊆ .state :: (required type target ++ optional type target)

instance (type : QpType) (target : QpState) (mask : List AttrMask) :
    Decidable (MaskFits type target mask) :=
  inferInstanceAs (Decidable (required type target ⊆ mask ∧
    mask ⊆ .state :: (required type target ++ optional type target)))

/-- The call makes a queue pair ready to receive, or one that can receive ready to send. -/
def Advances (qp attr : QpAttr) (mask : List AttrMask) : Prop :=
  .state ∈ mask ∧ (qp.qpState = .init ∧ attr.qpState = .rtr ∨
    qp.qpState = .rtr ∧ attr.qpState = .rts)

instance (qp attr : QpAttr) (mask : List AttrMask) : Decidable (Advances qp attr mask) :=
  inferInstanceAs (Decidable (.state ∈ mask ∧ (qp.qpState = .init ∧ attr.qpState = .rtr ∨
    qp.qpState = .rtr ∧ attr.qpState = .rts)))

/-- These transitions succeed exactly when the mask fits the transport. -/
def Conforms (type : QpType) (ibvModifyQp : ModifyQp) : Prop :=
  ∀ qp attr mask, Advances qp attr mask →
    ((ibvModifyQp qp attr mask).1 = 0 ↔ MaskFits type attr.qpState mask)

/-- The argument `reliable` names the transport. -/
def Names (reliable : Int) (type : QpType) : Prop := reliable ≠ 0 ↔ type = .rc

instance (reliable : Int) (type : QpType) : Decidable (Names reliable type) :=
  inferInstanceAs (Decidable (reliable ≠ 0 ↔ type = .rc))

variable {ibvModifyQp : ModifyQp} {type : QpType} {qp : QpAttr} {neighborQpInfo : QpInfo}
  {mtu : IbvMtu} {reliable : Int}

/-! ### The calls -/

theorem modifyQpToRtrUc_iff (hconforms : Conforms type ibvModifyQp) (hinit : qp.qpState = .init) :
    (modifyQpToRtrUc ibvModifyQp qp neighborQpInfo mtu).1 = 0 ↔ type = .uc := by
  refine (hconforms qp _ _ ⟨by simp, .inl ⟨hinit, rfl⟩⟩).trans ?_
  show MaskFits type .rtr _ ↔ _
  cases type <;> decide

theorem modifyQpToRtsUc_iff (hconforms : Conforms type ibvModifyQp) (hrtr : qp.qpState = .rtr) :
    (modifyQpToRtsUc ibvModifyQp qp).1 = 0 ↔ type = .uc := by
  refine (hconforms qp _ _ ⟨by simp, .inr ⟨hrtr, rfl⟩⟩).trans ?_
  show MaskFits type .rts _ ↔ _
  cases type <;> decide

/-- The unreliable code, when the transport is unreliable. -/
theorem modifyQpToRts_unreliable (happlies : AppliesMask ibvModifyQp)
    (hconforms : Conforms .uc ibvModifyQp) (hinit : qp.qpState = .init) :
    ∃ qp', modifyQpToRts ibvModifyQp qp neighborQpInfo mtu 0 = some (0, qp') := by
  have hrtr : (modifyQpToRtrUc ibvModifyQp qp neighborQpInfo mtu).1 = 0 :=
    (modifyQpToRtrUc_iff hconforms hinit).mpr rfl
  have hafter : (modifyQpToRtrUc ibvModifyQp qp neighborQpInfo mtu).2.qpState = .rtr := by
    unfold modifyQpToRtrUc at hrtr ⊢
    rw [happlies _ _ _ hrtr]
    rfl
  have hrts := (modifyQpToRtsUc_iff hconforms hafter).mpr rfl
  refine ⟨(modifyQpToRtsUc ibvModifyQp (modifyQpToRtrUc ibvModifyQp qp neighborQpInfo mtu).2).2, ?_⟩
  unfold modifyQpToRts
  simp only [ne_eq, not_true_eq_false, if_false, hrtr, if_true]
  rw [← hrts]

/-- The reliable code, when the transport is reliable. -/
theorem modifyQpToRtsRc_reliable (happlies : AppliesMask ibvModifyQp)
    (hconforms : Conforms .rc ibvModifyQp) (hinit : qp.qpState = .init) :
    ∃ qp', modifyQpToRtsRc ibvModifyQp qp neighborQpInfo mtu = some (0, qp') := by
  unfold modifyQpToRtsRc
  dsimp only
  split
  · next hrtr =>
    have hafter := happlies _ _ _ hrtr
    split
    · exact ⟨_, rfl⟩
    · next hrts =>
      refine absurd ((hconforms _ _ _ ⟨by simp, .inr ⟨by rw [hafter]; rfl, rfl⟩⟩).mpr ?_) hrts
      show MaskFits .rc .rts _
      decide
  · next hrtr =>
    refine absurd ((hconforms _ _ _ ⟨by simp, .inl ⟨hinit, rfl⟩⟩).mpr ?_) hrtr
    show MaskFits .rc .rtr _
    decide

/-- The reliable code ends with a failed `CHECK` when the transport is unreliable. -/
theorem modifyQpToRtsRc_unreliable (hconforms : Conforms .uc ibvModifyQp)
    (hinit : qp.qpState = .init) : modifyQpToRtsRc ibvModifyQp qp neighborQpInfo mtu = none := by
  unfold modifyQpToRtsRc
  dsimp only
  refine if_neg fun hrtr => ?_
  have hfits := (hconforms _ _ _ ⟨by simp, .inl ⟨hinit, rfl⟩⟩).mp hrtr
  refine absurd hfits ?_
  show ¬ MaskFits .uc .rtr _
  decide

/-- With an argument that names the transport both transitions succeed. -/
theorem modifyQpToRts_of_names (happlies : AppliesMask ibvModifyQp)
    (hconforms : Conforms type ibvModifyQp) (hinit : qp.qpState = .init)
    (hnames : Names reliable type) :
    ∃ qp', modifyQpToRts ibvModifyQp qp neighborQpInfo mtu reliable = some (0, qp') := by
  cases type with
  | rc =>
      rw [modifyQpToRts, if_pos (hnames.mpr rfl)]
      exact modifyQpToRtsRc_reliable happlies hconforms hinit
  | uc =>
      have hzero : reliable = 0 := by
        by_contra hne
        cases hnames.mp hne
      rw [hzero]
      exact modifyQpToRts_unreliable happlies hconforms hinit

/-- With the wrong argument the first transition fails. -/
theorem modifyQpToRts_of_not_names (hconforms : Conforms type ibvModifyQp)
    (hinit : qp.qpState = .init) (hnames : ¬ Names reliable type) :
    modifyQpToRts ibvModifyQp qp neighborQpInfo mtu reliable = none := by
  unfold modifyQpToRts
  by_cases hreliable : reliable ≠ 0
  · rw [if_pos hreliable]
    cases type with
    | rc => exact absurd (iff_of_true hreliable rfl) hnames
    | uc => exact modifyQpToRtsRc_unreliable hconforms hinit
  · rw [if_neg hreliable]
    refine if_neg fun hrtr => hnames ?_
    rw [(modifyQpToRtrUc_iff hconforms hinit).mp hrtr]
    exact iff_of_false hreliable nofun

/-- **The transport.**  From the state INIT, `modify_qp_to_rts` connects the queue pair when
`reliable` names its transport, and ends the process when it does not. -/
theorem transport_iff (happlies : AppliesMask ibvModifyQp) (hconforms : Conforms type ibvModifyQp)
    (hinit : qp.qpState = .init) :
    ((∃ qp', modifyQpToRts ibvModifyQp qp neighborQpInfo mtu reliable = some (0, qp') ∧
        Connected neighborQpInfo (expectedPsn neighborQpInfo reliable) qp') ↔
      Names reliable type) ∧
    (modifyQpToRts ibvModifyQp qp neighborQpInfo mtu reliable = none ↔ ¬ Names reliable type) := by
  by_cases hnames : Names reliable type
  · have hmodify : ∃ qp', modifyQpToRts ibvModifyQp qp neighborQpInfo mtu reliable = some (0, qp') :=
      modifyQpToRts_of_names happlies hconforms hinit hnames
    obtain ⟨qp', hqp'⟩ := hmodify
    refine ⟨iff_of_true ⟨qp', hqp', modifyQpToRts_connected happlies hqp'⟩ hnames, ?_⟩
    exact iff_of_false (fun hnone => by rw [hqp'] at hnone; cases hnone) (not_not_intro hnames)
  · have hnone : modifyQpToRts ibvModifyQp qp neighborQpInfo mtu reliable = none :=
      modifyQpToRts_of_not_names hconforms hinit hnames
    refine ⟨iff_of_false ?_ hnames, iff_of_true hnone hnames⟩
    rintro ⟨qp', hqp', -⟩
    rw [hqp'] at hnone
    cases hnone

/-! ### A driver that checks the mask -/

/-- An `ibv_modify_qp` that returns `EINVAL` for a mask that does not fit. -/
def checksMask (type : QpType) : ModifyQp := fun qp attr mask =>
  if Advances qp attr mask ∧ ¬ MaskFits type attr.qpState mask then (22, qp)
  else (0, qp.apply attr mask)

theorem checksMask_appliesMask (type : QpType) : AppliesMask (checksMask type) := by
  intro qp attr mask h
  unfold checksMask at h ⊢
  split at h
  · cases h
  · next hfits => rw [if_neg hfits]

theorem checksMask_conforms (type : QpType) : Conforms type (checksMask type) := by
  intro qp attr mask hadvances
  unfold checksMask
  split
  · next hunfit => exact iff_of_false nofun hunfit.2
  · next hfits =>
    refine iff_of_true rfl ?_
    by_contra hunfit
    exact hfits ⟨hadvances, hunfit⟩

/-- A queue pair of the unreliable transport: the argument 0 connects it, and 1 does not. -/
theorem transport_iff_uc :
    (∃ qp', modifyQpToRts (checksMask .uc) { qpState := .init } info18 .mtu1024 0 = some (0, qp') ∧
        Connected info18 (expectedPsn info18 0) qp') ∧
      modifyQpToRts (checksMask .uc) { qpState := .init } info18 .mtu1024 1 = none :=
  ⟨(transport_iff (checksMask_appliesMask .uc) (checksMask_conforms .uc) rfl).1.mpr (by decide),
    (transport_iff (checksMask_appliesMask .uc) (checksMask_conforms .uc) rfl).2.mpr (by decide)⟩

end Rdma
end FlashReduce
