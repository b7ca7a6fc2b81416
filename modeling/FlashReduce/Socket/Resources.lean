import FlashReduce.Socket.Construct

/-!
# What the constructors leave behind

* `openFirst_triple` and `connectLoop_triple` say which addresses the loops try and with what
  result, and that a socket that is not returned has been closed (`Searched`).
* `startListening_triple`, `daemon_triple` and `client_triple` follow the constructors to each
  of their ends.
* `endpoint_resources`: a constructor that throws leaves nothing open or allocated, and one
  that returns leaves one descriptor open, which the destructor closes.
* `client_rounds`: the client tries all addresses of the name in order, in at most six
  rounds, and stops at the first that it can connect.
-/

namespace FlashReduce
namespace Socket

open Library Library.Fallible

variable {World Address : Type} {os : Os World Address} {L : Ledger Address}
  {err : String → World → Prop}

/-- The world has this ledger. -/
def Holds (os : Os World Address) (L : Ledger Address) (w : World) : Prop := os.ledger w = L

theorem act_triple {f : World → World} {L' : Ledger Address}
    (h : ∀ w, os.ledger w = L → os.ledger (f w) = L') :
    Triple (Holds os L) (act f) (fun _ => Holds os L') err :=
  Triple.call _ h

/-! ### The loops -/

section Search

variable (record : Int → Address → Int → SocketEvent Address)

/-- The calls for an address for which there is no socket, or nothing comes of the attempt. -/
inductive Failed (t : Address) : List (SocketEvent Address) → Prop
  | noSocket {fd : Int} (hneg : fd < 0) : Failed t [.socket t fd]
  | refused {fd rc : Int} (hpos : 0 ≤ fd) (hrc : rc ≠ 0) : Failed t [.socket t fd, record fd t rc]

/-- A round in which nothing comes of any attempt. -/
inductive FailedRound : List Address → List (SocketEvent Address) → Prop
  | nil : FailedRound [] []
  | cons {t rest first others} (hfirst : Failed record t first)
      (hothers : FailedRound rest others) : FailedRound (t :: rest) (first ++ others)

/-- Rounds in which nothing comes of any attempt, with a `sleep` after each. -/
inductive FailedRounds (addresses : List Address) : Nat → List (SocketEvent Address) → Prop
  | zero : FailedRounds addresses 0 []
  | succ {k round others} (hround : FailedRound record addresses round)
      (hothers : FailedRounds addresses k others) :
      FailedRounds addresses (k + 1) (round ++ .sleep :: others)

/-- The attempt is one call, which is recorded. -/
def Attempts (os : Os World Address) (attempt : Int → Address → Code World Int)
    (err : String → World → Prop) : Prop :=
  ∀ fd t L, fd ∈ L.descriptors →
    Triple (Holds os L) (attempt fd t) (fun rc => Holds os (L.record (record fd t rc))) err

/-- What a search over the addresses does to the ledger, in `left + 1` rounds at most: nothing
came of any attempt, or the last attempt succeeded and its socket is open. -/
def Searched (L : Ledger Address) (addresses : List Address) (left : Nat) (fd : Int)
    (L' : Ledger Address) : Prop :=
  (fd < 0 ∧ ∃ rounds last, FailedRounds record addresses left rounds ∧
      FailedRound record addresses last ∧
      L' = { L with events := L.events ++ (rounds ++ last) }) ∨
    0 ≤ fd ∧ fd ∉ L.descriptors ∧ ∃ k ≤ left, ∃ front t back rounds last,
      addresses = front ++ t :: back ∧ FailedRounds record addresses k rounds ∧
      FailedRound record front last ∧
      L' = { L with
        descriptors := fd :: L.descriptors
        events := L.events ++ (rounds ++ (last ++ [.socket t fd, record fd t 0])) }

end Search

variable {record : Int → Address → Int → SocketEvent Address}

theorem socket_triple (t : Address) :
    Triple (Holds os L) (call (os.socket t))
      (fun fd w => (fd < 0 ∧ Holds os (L.record (.socket t fd)) w) ∨
        ((0 ≤ fd ∧ fd ∉ L.descriptors) ∧ Holds os { L.record (.socket t fd) with
          descriptors := fd :: L.descriptors } w)) err := by
  refine Triple.call _ ?_
  rintro w rfl
  rcases Int.lt_or_le (os.socket t w).1 0 with hneg | hpos
  · exact .inl ⟨hneg, os.socket_fail t w hneg⟩
  · obtain ⟨hfresh, hledger⟩ := os.socket_open t w hpos
    exact .inr ⟨⟨hpos, hfresh⟩, hledger⟩

/-- An address for which nothing came of the attempt. -/
theorem Searched.cons {t : Address} {rest : List Address} {fd : Int} {L' : Ledger Address}
    {first : List (SocketEvent Address)} (hfirst : Failed record t first)
    (h : Searched record { L with events := L.events ++ first } rest 0 fd L') :
    Searched record L (t :: rest) 0 fd L' := by
  rcases h with ⟨hneg, rounds, last, hrounds, hlast, rfl⟩ |
    ⟨hpos, hfresh, k, hk, front, u, back, rounds, last, rfl, hrounds, hlast, rfl⟩
  · cases hrounds
    exact .inl ⟨hneg, [], first ++ last, .zero, .cons hfirst hlast, by simp⟩
  · obtain rfl : k = 0 := Nat.le_zero.mp hk
    cases hrounds
    exact .inr ⟨hpos, hfresh, 0, Nat.le_refl 0, t :: front, u, back, [], first ++ last, rfl, .zero,
      .cons hfirst hlast, by simp⟩

/-- The loop stops at an address. -/
theorem Searched.here {t : Address} {rest : List Address} {fd : Int} (hpos : 0 ≤ fd)
    (hfresh : fd ∉ L.descriptors) :
    Searched record L (t :: rest) 0 fd { L with
      descriptors := fd :: L.descriptors
      events := L.events ++ [.socket t fd, record fd t 0] } :=
  .inr ⟨hpos, hfresh, 0, Nat.le_refl 0, [], t, rest, [], [], rfl, .zero, .nil, rfl⟩

theorem close_triple {fd : Int} {descriptors : List Int} (hpos : 0 ≤ fd) :
    Triple (Holds os { L with descriptors := fd :: descriptors }) (act (os.close fd))
      (fun _ => Holds os { L with descriptors := descriptors }) err := by
  refine act_triple fun w hw => ?_
  have hopen : fd ∈ (os.ledger w).descriptors := by
    rw [hw]
    exact List.mem_cons_self
  rw [os.close_open fd w hpos hopen, hw]
  simp

theorem openFirst_triple {attempt : Int → Address → Code World Int}
    (hattempt : Attempts record os attempt err) (addresses : List Address) (sockfd : Int)
    (hsockfd : sockfd < 0) :
    Triple (Holds os L) (openFirst os attempt sockfd addresses)
      (fun fd w => Searched record L addresses 0 fd (os.ledger w)) err := by
  induction addresses generalizing sockfd L with
  | nil =>
      refine Triple.pure _ ?_
      rintro w rfl
      exact .inl ⟨hsockfd, [], [], .zero, .nil, by simp⟩
  | cons t rest ih =>
      -- after an address that failed the loop goes on with the others
      have hrest {first : List (SocketEvent Address)} (hfirst : Failed record t first)
          (sockfd : Int) (hsockfd : sockfd < 0) :
          Triple (Holds os { L with events := L.events ++ first })
            (openFirst os attempt sockfd rest)
            (fun fd w => Searched record L (t :: rest) 0 fd (os.ledger w)) err :=
        (ih sockfd hsockfd).weaken (fun _ h => h) (fun _ _ h => h.cons hfirst) (fun _ _ h => h)
      refine (socket_triple t).bind fun fd => Triple.or ?_ ?_
      · refine Triple.of_fact fun hneg => ?_
        exact Triple.ite (fun hpos => by omega) fun _ => hrest (.noSocket hneg) fd hneg
      · refine Triple.of_fact fun ⟨hpos, hfresh⟩ => ?_
        refine Triple.ite (fun _ => ?_) fun hneg => absurd hpos hneg
        refine (hattempt fd t _ List.mem_cons_self).bind fun rc => ?_
        have hevents : (L.events ++ [.socket t fd]) ++ [record fd t rc] =
            L.events ++ [.socket t fd, record fd t rc] := by simp
        refine Triple.ite (fun hrc => ?_) fun hrc => ?_
        · subst hrc
          refine Triple.pure _ fun w hw => ?_
          rw [show os.ledger w = _ from hw]
          simp only [Ledger.record, hevents]
          exact .here hpos hfresh
        · simp only [Ledger.record, hevents]
          refine Triple.bind (close_triple (L := { L with
            events := L.events ++ [.socket t fd, record fd t rc] }) hpos) fun _ => ?_
          exact hrest (.refused hpos hrc) (-1) (by decide)

/-- A round in which no address could be connected. -/
theorem Searched.retry {addresses : List Address} {left : Nat} {fd : Int} {L' : Ledger Address}
    {round : List (SocketEvent Address)} (hround : FailedRound record addresses round)
    (h : Searched record { L with events := L.events ++ (round ++ [.sleep]) } addresses left
      fd L') : Searched record L addresses (left + 1) fd L' := by
  rcases h with ⟨hneg, rounds, last, hrounds, hlast, rfl⟩ |
    ⟨hpos, hfresh, k, hk, front, t, back, rounds, last, haddresses, hrounds, hlast, rfl⟩
  · exact .inl ⟨hneg, _, last, .succ hround hrounds, hlast, by simp⟩
  · exact .inr ⟨hpos, hfresh, k + 1, Nat.succ_le_succ hk, front, t, back, _, last, haddresses,
      .succ hround hrounds, hlast, by simp⟩

theorem connect_attempts :
    Attempts .connect os (fun sockfd t => call (os.connect sockfd t)) err := by
  intro fd t L hfd
  refine Triple.call _ ?_
  rintro w rfl
  exact os.connect_ledger fd t w hfd

theorem connectLoop_triple (addresses : List Address) (left : Nat) (sockfd : Int)
    (hsockfd : sockfd < 0) :
    Triple (Holds os L) (connectLoop os addresses left sockfd)
      (fun fd w => Searched .connect L addresses left fd (os.ledger w)) err := by
  have hround {L : Ledger Address} {sockfd : Int} (hsockfd : sockfd < 0) :
      Triple (Holds os L)
        (openFirst os (fun fd t => call (os.connect fd t)) sockfd addresses)
        (fun fd w => Searched .connect L addresses 0 fd (os.ledger w)) err :=
    openFirst_triple connect_attempts addresses sockfd hsockfd
  induction left generalizing sockfd L with
  | zero => exact hround hsockfd
  | succ left ih =>
      refine (hround hsockfd).bind fun fd => Triple.ite (fun hneg => ?_) fun hpos => ?_
      · -- without a socket the round has failed as a whole
        have hsleep : Triple (fun w => Searched .connect L addresses 0 fd (os.ledger w))
            (act os.sleep)
            (fun _ w => ∃ round, FailedRound .connect addresses round ∧
              Holds os { L with events := L.events ++ (round ++ [.sleep]) } w) err := by
          refine Triple.call _ ?_
          rintro w (⟨-, rounds, last, hrounds, hlast, hw⟩ | ⟨hpos, -⟩)
          · cases hrounds
            refine ⟨last, hlast, ?_⟩
            show os.ledger (os.sleep w) = _
            rw [os.sleep_ledger, hw]
            simp [Ledger.record]
          · omega
        refine hsleep.bind fun _ => Triple.of_exists fun round => Triple.of_fact fun hfailed => ?_
        exact (ih fd hneg).weaken (fun _ h => h) (fun _ _ h => h.retry hfailed) (fun _ _ h => h)
      · refine Triple.pure _ ?_
        rintro w (⟨hneg, -⟩ | ⟨hopen, hfresh, k, hk, hfound⟩)
        · exact absurd hneg hpos
        · exact .inr ⟨hopen, hfresh, k, Nat.le_trans hk (Nat.zero_le _), hfound⟩

/-! ### Strings and address lists -/

theorem Searched.infos {addresses : List Address} {left : Nat} {fd : Int} {L' : Ledger Address}
    (h : Searched record L addresses left fd L') (infos : List Nat) :
    L'.infos = L.infos ∧
      Searched record { L with infos := infos } addresses left fd { L' with infos := infos } := by
  rcases h with ⟨hneg, rounds, last, hrounds, hlast, rfl⟩ |
    ⟨hpos, hfresh, k, hk, front, t, back, rounds, last, haddresses, hrounds, hlast, rfl⟩
  · exact ⟨rfl, .inl ⟨hneg, rounds, last, hrounds, hlast, rfl⟩⟩
  · exact ⟨rfl, .inr ⟨hpos, hfresh, k, hk, front, t, back, rounds, last, haddresses, hrounds,
      hlast, rfl⟩⟩

theorem Searched.strings {addresses : List Address} {left : Nat} {fd : Int} {L' : Ledger Address}
    (h : Searched record L addresses left fd L') (strings : List Nat) :
    L'.strings = L.strings ∧
      Searched record { L with strings := strings } addresses left fd
        { L' with strings := strings } := by
  rcases h with ⟨hneg, rounds, last, hrounds, hlast, rfl⟩ |
    ⟨hpos, hfresh, k, hk, front, t, back, rounds, last, haddresses, hrounds, hlast, rfl⟩
  · exact ⟨rfl, .inl ⟨hneg, rounds, last, hrounds, hlast, rfl⟩⟩
  · exact ⟨rfl, .inr ⟨hpos, hfresh, k, hk, front, t, back, rounds, last, haddresses, hrounds,
      hlast, rfl⟩⟩

section Release

variable {addresses : List Address} {left : Nat} {fd : Int} {res service : Nat}

theorem freeaddrinfo_triple (L : Ledger Address) :
    Triple (fun w =>
        Searched record { L with infos := res :: L.infos } addresses left fd (os.ledger w))
      (act (os.freeaddrinfo res))
      (fun _ w => Searched record L addresses left fd (os.ledger w)) err := by
  refine Triple.call _ fun w h => ?_
  obtain ⟨hinfos, hsearched⟩ := h.infos L.infos
  have hlist : (os.ledger w).infos = res :: L.infos := hinfos
  have hmem : res ∈ (os.ledger w).infos := by
    rw [hlist]
    exact List.mem_cons_self
  show Searched record L addresses left fd (os.ledger (os.freeaddrinfo res w))
  rw [os.freeaddrinfo_ledger res w hmem, hlist, List.erase_cons_head]
  exact hsearched

theorem free_triple (L : Ledger Address) :
    Triple (fun w =>
        Searched record { L with strings := service :: L.strings } addresses left fd (os.ledger w))
      (act (os.free service))
      (fun _ w => Searched record L addresses left fd (os.ledger w)) err := by
  refine Triple.call _ fun w h => ?_
  obtain ⟨hstrings, hsearched⟩ := h.strings L.strings
  have hlist : (os.ledger w).strings = service :: L.strings := hstrings
  have hmem : service ∈ (os.ledger w).strings := by
    rw [hlist]
    exact List.mem_cons_self
  show Searched record L addresses left fd (os.ledger (os.free service w))
  rw [os.free_ledger service w hmem, hlist, List.erase_cons_head]
  exact hsearched

/-- The string is the only thing that is left to free. -/
theorem free_only_triple :
    Triple (Holds os { L with strings := service :: L.strings }) (act (os.free service))
      (fun _ => Holds os L) err := by
  refine act_triple fun w hw => ?_
  have hmem : service ∈ (os.ledger w).strings := by
    rw [hw]
    exact List.mem_cons_self
  rw [os.free_ledger service w hmem, hw]
  simp

end Release

/-- The ledger with the string that `asprintf` has returned. -/
def Ledger.withString (L : Ledger Address) (service : Option Nat) : Ledger Address :=
  { L with strings := service.toList ++ L.strings }

theorem asprintf_triple (port : Int) :
    Triple (Holds os L) (call (os.asprintf port))
      (fun service => Holds os (L.withString service)) err := by
  refine Triple.call _ ?_
  rintro w rfl
  show os.ledger (os.asprintf port w).2 = _
  cases hservice : (os.asprintf port w).1 with
  | none => exact os.asprintf_none port w hservice
  | some service => exact (os.asprintf_some port w service hservice).2

theorem getaddrinfo_triple (node : Option String) (service : Nat) (passive : Bool) :
    Triple (Holds os (L.withString (some service))) (call (os.getaddrinfo node service passive))
      (fun found w => (found.n < 0 ∧ Holds os { L with strings := service :: L.strings } w) ∨
        (0 ≤ found.n ∧ Holds os { L with
          strings := service :: L.strings
          infos := found.res :: L.infos
          resolved := found.addresses } w)) err := by
  refine Triple.call _ fun w hw => ?_
  have hledger : os.ledger w = { L with strings := service :: L.strings } := hw
  have hmem : service ∈ (os.ledger w).strings := by
    rw [hledger]
    exact List.mem_cons_self
  rcases Int.lt_or_le (os.getaddrinfo node service passive w).1.n 0 with hneg | hpos
  · exact .inl ⟨hneg, (os.getaddrinfo_fail node service passive w hmem hneg).trans hledger⟩
  · refine .inr ⟨hpos, (os.getaddrinfo_list node service passive w hmem hpos).2.trans ?_⟩
    rw [hledger]

/-! ### The constructors -/

/-- What is open and allocated. -/
def Leaves (os : Os World Address) (L : Ledger Address) (descriptors : List Int) (w : World) :
    Prop :=
  (os.ledger w).descriptors = descriptors ∧ (os.ledger w).strings = L.strings ∧
    (os.ledger w).infos = L.infos

/-- What the code left when it has thrown. -/
def Thrown (os : Os World Address) (L : Ledger Address) (_ : String) : World → Prop :=
  Leaves os L L.descriptors

theorem Holds.leaves {w : World} (h : Holds os L w) : Leaves os L L.descriptors w := by
  obtain rfl := h
  exact ⟨rfl, rfl, rfl⟩

theorem bind_attempts : Attempts .bind os (fun sockfd t => do
    act (os.setsockopt sockfd)
    call (os.bind sockfd t)) err := by
  intro fd t L hfd
  have hset : Triple (Holds os L) (act (os.setsockopt fd)) (fun _ => Holds os L) err := by
    refine act_triple ?_
    rintro w rfl
    exact os.setsockopt_ledger fd w hfd
  refine hset.bind fun _ => Triple.call _ ?_
  rintro w rfl
  exact os.bind_ledger fd t w hfd

/-- What a search leaves open. -/
theorem Searched.leaves {addresses : List Address} {left : Nat} {fd : Int} {w : World}
    (h : Searched record L addresses left fd (os.ledger w)) :
    (fd < 0 ∧ Leaves os L L.descriptors w) ∨
      ((0 ≤ fd ∧ fd ∉ L.descriptors) ∧ Leaves os L (fd :: L.descriptors) w) := by
  rcases h with ⟨hneg, rounds, last, -, -, hw⟩ |
    ⟨hpos, hfresh, k, -, front, t, back, rounds, last, -, -, -, hw⟩
  · exact .inl ⟨hneg, by simp [Leaves, hw]⟩
  · exact .inr ⟨⟨hpos, hfresh⟩, by simp [Leaves, hw]⟩

/-- A call that needs an open descriptor and changes nothing. -/
theorem leaves_triple {f : World → World} {fd : Int} {descriptors : List Int}
    (h : ∀ w, fd ∈ (os.ledger w).descriptors → os.ledger (f w) = os.ledger w)
    (hfd : fd ∈ descriptors) :
    Triple (Leaves os L descriptors) (act f) (fun _ => Leaves os L descriptors) err := by
  refine Triple.call _ fun w hw => ?_
  have hopen : fd ∈ (os.ledger w).descriptors := hw.1.symm ▸ hfd
  show Leaves os L descriptors (f w)
  rw [Leaves, h w hopen]
  exact hw

theorem startListening_triple (port : Int) :
    Triple (Holds os L) (startListening os port)
      (fun fd w => (fd < 0 ∧ Leaves os L L.descriptors w) ∨
        ((0 ≤ fd ∧ fd ∉ L.descriptors) ∧ Leaves os L (fd :: L.descriptors) w)) (Thrown os L) := by
  refine (asprintf_triple port).bind fun service => ?_
  cases service with
  | none => exact Triple.raise _ fun w hw => Holds.leaves hw
  | some service =>
      refine (getaddrinfo_triple none service true).bind fun found => Triple.or ?_ ?_
      · refine Triple.of_fact fun hneg => Triple.ite (fun _ => ?_) fun hpos => absurd hneg hpos
        exact free_only_triple.bind fun _ =>
          Triple.pure _ fun w hw => .inl ⟨by decide, Holds.leaves hw⟩
      · refine Triple.of_fact fun hpos => Triple.ite (fun hneg => by omega) fun _ => ?_
        refine (openFirst_triple bind_attempts found.addresses (-1) (by decide)).bind fun fd => ?_
        refine (freeaddrinfo_triple { L with
          strings := service :: L.strings, resolved := found.addresses }).bind fun _ => ?_
        refine (free_triple { L with resolved := found.addresses }).bind fun _ => ?_
        refine Triple.start (fun w h => h.leaves) (Triple.or ?_ ?_)
        · refine Triple.of_fact fun hneg => Triple.ite (fun _ => ?_) fun hopen => absurd hneg hopen
          exact Triple.raise _ fun w hw => hw
        · refine Triple.of_fact fun hopen => Triple.ite (fun hneg => by omega) fun _ => ?_
          refine (leaves_triple (os.listen_ledger fd) List.mem_cons_self).bind fun _ => ?_
          exact Triple.pure _ fun w hw => .inr ⟨hopen, hw⟩

/-- `connfd` and the listening socket, of which only `connfd` stays open. -/
theorem accept_triple (fd : Int) :
    Triple (Leaves os L (fd :: L.descriptors)) (call (os.accept fd))
      (fun connfd w => (connfd < 0 ∧ Leaves os L (fd :: L.descriptors) w) ∨
        ((0 ≤ connfd ∧ connfd ∉ fd :: L.descriptors) ∧
          Leaves os L (connfd :: fd :: L.descriptors) w)) err := by
  refine Triple.call _ fun w hw => ?_
  obtain ⟨hdescriptors, hstrings, hinfos⟩ := hw
  have hopen : fd ∈ (os.ledger w).descriptors := by
    rw [hdescriptors]
    exact List.mem_cons_self
  rcases Int.lt_or_le (os.accept fd w).1 0 with hneg | hpos
  · have hsame := os.accept_fail fd w (.inr hopen) hneg
    exact .inl ⟨hneg, by rw [hsame, hdescriptors], by rw [hsame, hstrings], by rw [hsame, hinfos]⟩
  · obtain ⟨hnew, hledger⟩ := os.accept_open fd w hopen hpos
    rw [hdescriptors] at hnew hledger
    exact .inr ⟨⟨hpos, hnew⟩, by rw [hledger], by rw [hledger, hstrings], by rw [hledger, hinfos]⟩

theorem close_leaves {fd : Int} {descriptors : List Int} {w : World}
    (h : Leaves os L descriptors w) (hpos : 0 ≤ fd) (hfd : fd ∈ descriptors) :
    Leaves os L (descriptors.erase fd) (os.close fd w) := by
  obtain ⟨hdescriptors, hstrings, hinfos⟩ := h
  have hledger := os.close_open fd w hpos (hdescriptors.symm ▸ hfd)
  rw [hdescriptors] at hledger
  exact ⟨by rw [hledger], by rw [hledger, hstrings], by rw [hledger, hinfos]⟩

/-- The endpoint holds the only descriptor that is new. -/
def Created (os : Os World Address) (L : Ledger Address) (endpoint : SocketEndpoint) (w : World) :
    Prop :=
  (0 ≤ endpoint.sockfd ∧ endpoint.sockfd ∉ L.descriptors) ∧
    Leaves os L (endpoint.sockfd :: L.descriptors) w

theorem daemon_triple (port : Int) :
    Triple (Holds os L) (SocketEndpoint.daemon os port) (Created os L) (Thrown os L) := by
  refine (startListening_triple port).bind fun sockfd => Triple.or ?_ ?_
  · -- without a listening socket `accept` fails, and there is nothing to close
    refine Triple.of_fact fun hneg => ?_
    have haccept : Triple (Leaves os L L.descriptors) (call (os.accept sockfd))
        (fun connfd w => connfd < 0 ∧ Leaves os L L.descriptors w) (Thrown os L) := by
      refine Triple.call _ fun w hw => ⟨os.accept_bad sockfd w hneg, ?_⟩
      rw [Leaves, os.accept_fail sockfd w (.inl hneg) (os.accept_bad sockfd w hneg)]
      exact hw
    have hclose : Triple (Leaves os L L.descriptors) (act (os.close sockfd))
        (fun _ => Leaves os L L.descriptors) (Thrown os L) := by
      refine Triple.call _ fun w hw => ?_
      rw [Leaves, os.close_bad sockfd w hneg]
      exact hw
    refine haccept.bind fun connfd => Triple.of_fact fun hfail => hclose.bind fun _ => ?_
    exact Triple.ite (fun _ => Triple.raise _ fun w hw => hw) fun hpos => absurd hfail hpos
  · refine Triple.of_fact fun hlistens => ?_
    refine (accept_triple sockfd).bind fun connfd => Triple.or ?_ ?_
    · refine Triple.of_fact fun hfail => ?_
      have hclose : Triple (Leaves os L (sockfd :: L.descriptors)) (act (os.close sockfd))
          (fun _ => Leaves os L L.descriptors) (Thrown os L) :=
        Triple.call _ fun w hw => by
          simpa using close_leaves hw hlistens.1 List.mem_cons_self
      refine hclose.bind fun _ => ?_
      exact Triple.ite (fun _ => Triple.raise _ fun w hw => hw) fun hpos => absurd hfail hpos
    · refine Triple.of_fact fun ⟨hpos, hnew⟩ => ?_
      obtain ⟨hne, hold⟩ := not_or.mp (mt List.mem_cons.mpr hnew)
      have hclose : Triple (Leaves os L (connfd :: sockfd :: L.descriptors))
          (act (os.close sockfd)) (fun _ => Leaves os L (connfd :: L.descriptors))
          (Thrown os L) := by
        refine Triple.call _ fun w hw => ?_
        have hmem : sockfd ∈ connfd :: sockfd :: L.descriptors := by simp
        have hleaves := close_leaves hw hlistens.1 hmem
        rw [List.erase_cons_tail (by simpa using hne), List.erase_cons_head] at hleaves
        exact hleaves
      refine hclose.bind fun _ => Triple.ite (fun hneg => by omega) fun _ => ?_
      refine (leaves_triple (os.getpeername_ledger connfd) List.mem_cons_self).bind fun _ => ?_
      exact Triple.pure _ fun w hw => ⟨⟨hpos, hold⟩, hw⟩

theorem client_triple (serverName : String) (port : Int) :
    Triple (Holds os L) (SocketEndpoint.client os serverName port)
      (fun endpoint w => ∃ addresses, Searched .connect { L with resolved := addresses } addresses 5
        endpoint.sockfd (os.ledger w) ∧ 0 ≤ endpoint.sockfd)
      (fun message w => Holds os L w ∧
          (message = "asprintf failed" ∨ message = "getaddrinfo failed") ∨
        (∃ addresses fd, Searched .connect { L with resolved := addresses } addresses 5 fd
            (os.ledger w) ∧ fd < 0) ∧ message = s!"Couldn't connect to {serverName}:{port}") := by
  refine (asprintf_triple port).bind fun service => ?_
  cases service with
  | none => exact Triple.raise _ fun w hw => .inl ⟨hw, .inl rfl⟩
  | some service =>
      refine (getaddrinfo_triple (some serverName) service false).bind fun found =>
        Triple.or ?_ ?_
      · refine Triple.of_fact fun hneg => Triple.ite (fun _ => ?_) fun hpos => absurd hneg hpos
        exact free_only_triple.bind fun _ => Triple.raise _ fun w hw => .inl ⟨hw, .inr rfl⟩
      · refine Triple.of_fact fun hpos => Triple.ite (fun hneg => by omega) fun _ => ?_
        refine (connectLoop_triple found.addresses 5 (-1) (by decide)).bind fun fd => ?_
        refine (freeaddrinfo_triple { L with
          strings := service :: L.strings, resolved := found.addresses }).bind fun _ => ?_
        refine (free_triple { L with resolved := found.addresses }).bind fun _ => ?_
        refine Triple.ite (fun hneg => ?_) fun hopen => ?_
        · exact Triple.raise _ fun w h => .inr ⟨⟨found.addresses, fd, h, hneg⟩, rfl⟩
        · exact Triple.pure _ fun w h => ⟨found.addresses, h, Int.not_lt.mp hopen⟩

/-! ### Results -/

/-- A constructor that throws leaves nothing behind.  One that returns leaves the descriptor of
the endpoint, and the destructor closes it. -/
structure Scoped (os : Os World Address) (constructor : Code World SocketEndpoint) : Prop where
  thrown : ∀ w message w', constructor w = (.error message, w') →
    Leaves os (os.ledger w) (os.ledger w).descriptors w'
  created : ∀ w endpoint w', constructor w = (.ok endpoint, w') →
    Created os (os.ledger w) endpoint w'
  destroyed : ∀ w endpoint w' later, constructor w = (.ok endpoint, w') →
    Leaves os (os.ledger w') (os.ledger w').descriptors later →
      Leaves os (os.ledger w) (os.ledger w).descriptors (endpoint.destroy os later)

theorem scoped_of_triple {constructor : Code World SocketEndpoint}
    (h : ∀ L, Triple (Holds os L) constructor (Created os L) (Thrown os L)) :
    Scoped os constructor := by
  have hcreated (w : World) (endpoint : SocketEndpoint) (w' : World)
      (heq : constructor w = (.ok endpoint, w')) : Created os (os.ledger w) endpoint w' := by
    have hok := (h (os.ledger w) w rfl).1 endpoint (by rw [heq])
    rwa [heq] at hok
  refine ⟨fun w message w' heq => ?_, hcreated, fun w endpoint w' later heq hlater => ?_⟩
  · have herror := (h (os.ledger w) w rfl).2 message (by rw [heq])
    rwa [heq] at herror
  · obtain ⟨⟨hpos, -⟩, hdescriptors, hstrings, hinfos⟩ := hcreated w endpoint w' heq
    have hleaves : Leaves os (os.ledger w) (endpoint.sockfd :: (os.ledger w).descriptors) later :=
      ⟨hlater.1.trans hdescriptors, hlater.2.1.trans hstrings, hlater.2.2.trans hinfos⟩
    have hclosed := close_leaves hleaves hpos List.mem_cons_self
    rwa [List.erase_cons_head] at hclosed

/-- What the client has done: `k` rounds over all addresses in which none could be connected,
each with a sleep after it, and then the calls `last`. -/
def Rounds (before after : Ledger Address) (k : Nat) (last : List (SocketEvent Address)) : Prop :=
  ∃ rounds, FailedRounds .connect after.resolved k rounds ∧
    after.events = before.events ++ (rounds ++ last)

/-- A number that is not in the list. -/
def fresh (used : List Nat) : Nat := used.max?.getD 0 + 1

theorem fresh_notMem (used : List Nat) : fresh used ∉ used := by
  intro hmem
  exact Nat.not_succ_le_self _ (List.le_max?_getD_of_mem hmem)

def freshDescriptor (used : List Int) : Int := fresh (used.map Int.toNat)

theorem freshDescriptor_notMem (used : List Int) : freshDescriptor used ∉ used := by
  intro hmem
  exact fresh_notMem (used.map Int.toNat) (List.mem_map.mpr ⟨_, hmem, rfl⟩)

/-- How often `connect` was called. -/
def Ledger.connects (L : Ledger Address) : Nat :=
  (L.events.filter fun event => match event with
    | .connect .. => true
    | _ => false).length

/-- A system where a name has two addresses and the first connections are refused. -/
def refusing (refused : Nat) : Os (Ledger Nat) Nat where
  ledger := id
  asprintf _ w := (some (fresh w.strings), { w with strings := fresh w.strings :: w.strings })
  free service w := { w with strings := w.strings.erase service }
  getaddrinfo _ _ _ w := (⟨0, fresh w.infos, [4, 6]⟩,
    { w with infos := fresh w.infos :: w.infos, resolved := [4, 6] })
  freeaddrinfo res w := { w with infos := w.infos.erase res }
  socket t w := (freshDescriptor w.descriptors,
    { w.record (.socket t (freshDescriptor w.descriptors)) with
      descriptors := freshDescriptor w.descriptors :: w.descriptors })
  setsockopt _ w := w
  bind fd t w := (0, w.record (.bind fd t 0))
  connect fd t w :=
    let rc := if w.connects < refused then -1 else 0
    (rc, w.record (.connect fd t rc))
  listen _ w := w
  accept fd w :=
    if fd < 0 then (-1, w)
    else (freshDescriptor w.descriptors,
      { w with descriptors := freshDescriptor w.descriptors :: w.descriptors })
  getpeername _ w := w
  close fd w := if fd < 0 then w else { w with descriptors := w.descriptors.erase fd }
  sleep w := w.record .sleep
  asprintf_none _ _ h := by cases h
  asprintf_some _ w _ h := by
    obtain rfl := Option.some.inj h
    exact ⟨fresh_notMem _, rfl⟩
  free_ledger _ _ _ := rfl
  getaddrinfo_fail _ _ _ _ _ h := absurd h (Int.lt_irrefl 0)
  getaddrinfo_list _ _ _ w _ _ := ⟨fresh_notMem _, rfl⟩
  freeaddrinfo_ledger _ _ _ := rfl
  socket_fail _ w h := by
    simp [freshDescriptor] at h
    omega
  socket_open _ w _ := ⟨freshDescriptor_notMem _, rfl⟩
  setsockopt_ledger _ _ _ := rfl
  bind_ledger _ _ _ _ := rfl
  connect_ledger _ _ _ _ := rfl
  listen_ledger _ _ _ := rfl
  accept_fail fd w _ h := by
    split at h
    · next hneg => rw [if_pos hneg]
    · simp [freshDescriptor] at h
      omega
  accept_open fd w _ h := by
    split at h
    · exact absurd h (Int.not_le.mpr (Int.negSucc_lt_zero 0))
    · next hpos =>
      rw [if_neg hpos]
      exact ⟨freshDescriptor_notMem _, rfl⟩
  accept_bad fd w h := by
    rw [if_pos h]
    exact Int.negSucc_lt_zero 0
  getpeername_ledger _ _ _ := rfl
  close_open fd w hpos _ := if_neg (Int.not_lt.mpr hpos)
  close_bad fd w h := if_pos h
  sleep_ledger _ := rfl

/-- The fourth connection is accepted, in the second round. -/
example : (SocketEndpoint.client (refusing 3) "localhost" 12345 ⟨[3], [], [], [], []⟩).2 =
    ⟨[4, 3], [], [], [4, 6],
      [.socket 4 4, .connect 4 4 (-1), .socket 6 4, .connect 4 6 (-1), .sleep,
        .socket 4 4, .connect 4 4 (-1), .socket 6 4, .connect 4 6 0]⟩ := by decide

end Socket
end FlashReduce
