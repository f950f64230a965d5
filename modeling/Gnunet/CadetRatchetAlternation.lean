import Gnunet.CadetDuplex
import Gnunet.CadetKeySchedule

/-!
# The two ends of a tunnel ratchet in turn

One of the two peers leads: its own epoch is the successor of the other one's, and
it has seen the other one's epoch.  The follower has seen the leader's epoch or,
until the first message of that epoch arrives, the one before it.  Only a follower
that has seen the leader's epoch starts a ratchet step, and it leads from then on.
-/

namespace Gnunet.Cadet

open Protocol Function Duplex

variable {D : Type}

/-- The epochs of a peer are even for alice and odd for bob. -/
def Peer.parity : Peer → Nat
  | .alice => 0
  | .bob => 1

variable {p : Peer}

theorem Peer.eq_of_parity {q : Peer} (heq : p.parity = q.parity) : p = q := by
  cases p <;> cases q <;> simp_all [Peer.parity]

/-- `ahead` made one Diffie-Hellman ratchet step from the root key that
`behind` holds. -/
def OneStepAhead (ahead behind : Axolotl D) : Prop :=
  ahead.RK = ratchetKey 0 behind.RK (Term.ecdh ahead.DHRs ahead.DHRr)

/-- The root keys are equal, or exactly one peer is one step ahead. -/
def RootKeysInStep (duplex : Duplex D) : Prop :=
  (duplex.ax .alice).RK = (duplex.ax .bob).RK ∨
    Xor (OneStepAhead (duplex.ax .alice) (duplex.ax .bob))
      (OneStepAhead (duplex.ax .bob) (duplex.ax .alice))

/-- No root key is one from which both peers started a ratchet step. -/
def RatchetInTurn (duplex : Duplex D) : Prop :=
  ∀ RK, (Peer.alice, RK) ∈ duplex.ratchets → (Peer.bob, RK) ∉ duplex.ratchets

structure Leads (leader : Peer) (own seen : Peer → Nat) : Prop where
  own_eq : own leader = own leader.other + 1
  seen_eq : seen leader = own leader.other
  follower : seen leader.other = own leader ∨ seen leader.other + 2 = own leader

def OfEpoch (sch : KeySchedule D) (e : Nat) (msg : EncryptedMessage D) : Prop :=
  ∃ header payload, msg = sealMessage (sch.headerKey e) header payload ∧
      header.DHRs = .point (sch.secret e)

structure Alternates (sch : KeySchedule D) (leader : Peer)
    (own seen : Peer → Nat) (duplex : Duplex D) : Prop where
  context : ∀ p, ContextAt sch (own p) (seen p) (duplex.ax p)
  parity : ∀ p, own p % 2 = p.parity
  leads : Leads leader own seen
  fresh : duplex.fresh = sch.secret (own leader + 1)
  sent : ∀ s ∈ duplex.sent, ∃ e, 1 ≤ e ∧ e ≤ own s.sender ∧
    e % 2 = s.sender.parity ∧ OfEpoch sch e s.msg
  ratchets : ∀ r ∈ duplex.ratchets, ∃ e, 1 ≤ e ∧ r.2 = sch.root e ∧ (e + 1) % 2 = r.1.parity

variable {ax : Axolotl D}

section

variable {sch : KeySchedule D} {leader : Peer} {own seen : Peer → Nat} {duplex : Duplex D}

theorem OneStepAhead.asymm (hahead : OneStepAhead ax ax') : ¬ OneStepAhead ax' ax := by
  intro hbehind
  have h₁ := size_lt_ratchetKey 0 ax'.RK (Term.ecdh ax.DHRs ax.DHRr)
  have h₂ := size_lt_ratchetKey 0 ax.RK (Term.ecdh ax'.DHRs ax'.DHRr)
  rw [← hahead] at h₁
  rw [← hbehind] at h₂
  omega

variable (halt : Alternates sch leader own seen duplex)
include halt

theorem Alternates.leader_root : (duplex.ax leader).RK = (duplex.ax leader.other).RK ∨
      OneStepAhead (duplex.ax leader) (duplex.ax leader.other) := by
  have hown := halt.leads.own_eq
  have hseen := halt.leads.seen_eq
  have hleader : (duplex.ax leader).RK = sch.root (own leader) := by
    rw [(halt.context leader).RK]
    congr 1
    omega
  have hfollower := (halt.context leader.other).RK
  rcases halt.leads.follower with hsync | hbehind
  · left
    rw [hleader, hfollower]
    congr 1
    omega
  · right
    have hmax : max (own leader.other) (seen leader.other) = own leader.other := by
      omega
    have hpos : 1 ≤ own leader.other := by omega
    rw [hmax] at hfollower
    unfold OneStepAhead
    rw [hleader, hfollower, (halt.context leader).DHRs (by omega),
      (halt.context leader).DHRr (by omega), hseen, hown]
    exact sch.root_succ hpos

theorem Alternates.rootKeysInStep : RootKeysInStep duplex := by
  rcases halt.leader_root with heq | hahead
  · left
    cases leader
    · exact heq
    · exact heq.symm
  · right
    cases leader
    · exact .inl ⟨hahead, hahead.asymm⟩
    · exact .inr ⟨hahead, hahead.asymm⟩

theorem Alternates.ratchetInTurn : RatchetInTurn duplex := by
  intro RK halice hbob
  obtain ⟨e, he, hroot, hparity⟩ := halt.ratchets _ halice
  obtain ⟨e', he', hroot', hparity'⟩ := halt.ratchets _ hbob
  have hsame : e = e' := by
    apply sch.root_injective he he'
    rw [← hroot, ← hroot']
  simp only [Peer.parity] at hparity hparity'
  omega

end

/-! ## Sending -/

variable {settings : Settings D}

section

variable {sch : KeySchedule D} {leader : Peer} {own seen : Peer → Nat} {duplex : Duplex D}

section

variable (hleads : Leads leader own seen)
include hleads

/-- Only the follower may start a ratchet step, once it has seen the leader's
epoch. -/
theorem Leads.follower_of_answered (hanswered : seen p = own p + 1) : p = leader.other := by
  have hown := hleads.own_eq
  have hseen := hleads.seen_eq
  rcases leader.eq_or_eq_other p with rfl | rfl
  · omega
  · rfl

theorem Leads.own_le_leader (p : Peer) : own p ≤ own leader ∧ own leader ≤ own p + 1 := by
  have hown := hleads.own_eq
  rcases leader.eq_or_eq_other p with rfl | rfl <;> omega

theorem Leads.own_le (p q : Peer) : own p ≤ own q + 1 :=
  (hleads.own_le_leader p).1.trans (hleads.own_le_leader q).2

theorem Leads.seen_le (p : Peer) : seen p ≤ own p.other ∧ own p.other ≤ seen p + 2 := by
  have hseen := hleads.seen_eq
  have hfollower := hleads.follower
  rcases leader.eq_or_eq_other p with rfl | rfl
  · omega
  · rw [Peer.other_other]
    omega

theorem Leads.afterAdvance (hanswered : seen leader.other = own leader.other + 1) :
    Leads leader.other (update own leader.other (own leader.other + 2)) seen := by
  have hown := hleads.own_eq
  have hseen := hleads.seen_eq
  have hne : leader ≠ leader.other := by
    cases leader <;> simp [Peer.other]
  constructor
  · simp [hne, hown]
  · simp [hne, hown, hanswered]
  · right
    simp [hseen]

end

theorem ContextAt.ofEpoch {p q : Nat} (hctx : ContextAt sch p q ax) (hpos : 1 ≤ p) (Ns PNs : Nat)
    (payload : Bytes D) :
    OfEpoch sch p (sealMessage ax.HKs ⟨Ns, PNs, ax.DHRs.publicKey⟩ payload) := by
  rw [hctx.HKs hpos, hctx.DHRs hpos]
  exact ⟨_, _, rfl, rfl⟩

variable {now : Nat}

theorem ContextAt.own_pos {p q : Nat} (hctx : ContextAt sch p q ax)
    (hratchets : Cadet.ratchets settings now ax = false) : 1 ≤ p := by
  by_contra hzero
  have hflag := hctx.first (by omega)
  simp [Cadet.ratchets, hflag] at hratchets

variable (halt : Alternates sch leader own seen duplex)
include halt

theorem Alternates.afterKeep (hratchets : Cadet.ratchets settings now (duplex.ax p) = false) :
    Alternates sch leader own seen (duplex.ratchet settings p now) := by
  rw [ratchet_of_not_ratchets hratchets]
  refine ⟨?_, halt.parity, halt.leads, halt.fresh, halt.sent, halt.ratchets⟩
  intro q
  by_cases hq : q = p
  · subst hq
    simpa using (halt.context q).afterCount _
  · simpa [hq] using halt.context q

theorem Alternates.afterAdvance
    (hratchets : Cadet.ratchets settings now (duplex.ax leader.other) = true) :
    Alternates sch leader.other (update own leader.other (own leader.other + 2)) seen
      (duplex.ratchet settings leader.other now) := by
  have hanswered := (halt.context leader.other).answered (ratchets_flags hratchets)
  have hown := halt.leads.own_eq
  have hfresh : duplex.fresh = sch.secret (own leader.other + 2) := halt.fresh.trans (by rw [hown])
  have hctx := (halt.context leader.other).afterAdvance hanswered settings now hfresh
  rw [ratchet_of_ratchets hratchets]
  refine ⟨?_, ?_, halt.leads.afterAdvance hanswered, ?_, ?_, ?_⟩
  · intro q
    by_cases hq : q = leader.other
    · subst hq
      simpa using hctx
    · simpa [hq] using halt.context q
  · intro q
    by_cases hq : q = leader.other
    · subst hq
      simpa using halt.parity leader.other
    · simpa [hq] using halt.parity q
  · simp only [update_self]
    rw [sch.secret_succ (by omega), halt.fresh, hown]
  · intro s hs
    obtain ⟨e, hpos, hbound, hparity, hepoch⟩ := halt.sent s hs
    refine ⟨e, hpos, hbound.trans ?_, hparity, hepoch⟩
    by_cases hq : s.sender = leader.other
    · simp [hq]
    · simp [hq]
  · intro r hr
    rcases List.mem_append.mp hr with hold | hnew
    · exact halt.ratchets r hold
    · rw [List.mem_singleton.mp hnew]
      refine ⟨own leader.other + 1, by omega, ?_, ?_⟩
      · have hRK := (halt.context leader.other).RK
        rw [hanswered] at hRK
        simpa using hRK
      · have hparity := halt.parity leader.other
        simp only
        omega

theorem Alternates.afterEncrypt (hpos : 1 ≤ own p) (message : D) :
    Alternates sch leader own seen (duplex.encrypt p message) := by
  refine ⟨?_, halt.parity, halt.leads, halt.fresh, ?_, halt.ratchets⟩
  · intro q
    by_cases hq : q = p
    · subst hq
      simpa [encrypt] using (halt.context q).afterEncrypt _ _
    · simpa [encrypt, hq] using halt.context q
  · intro s hs
    rcases List.mem_append.mp hs with hold | hnew
    · exact halt.sent s hold
    · rw [List.mem_singleton.mp hnew]
      exact ⟨own p, hpos, le_rfl, halt.parity p, (halt.context p).ofEpoch hpos _ _ _⟩

theorem Alternates.afterSend (settings : Settings D) (p : Peer) (now : Nat) (message : D) :
    ∃ leader own, Alternates sch leader own seen (duplex.send settings p now message) := by
  rw [send_eq]
  cases hratchets : Cadet.ratchets settings now (duplex.ax p) with
  | false =>
    have hpos := (halt.context p).own_pos hratchets
    exact ⟨leader, own, (halt.afterKeep hratchets).afterEncrypt hpos _⟩
  | true =>
    have hanswered := (halt.context p).answered (ratchets_flags hratchets)
    obtain rfl := halt.leads.follower_of_answered hanswered
    exact ⟨leader.other, _, (halt.afterAdvance hratchets).afterEncrypt (by simp) _⟩

end

section

variable {sch : KeySchedule D} {leader : Peer} {own seen : Peer → Nat} {duplex : Duplex D}

theorem Leads.afterSeen (hleads : Leads leader own seen)
    (hbehind : seen leader.other + 2 = own leader) :
    Leads leader own (update seen leader.other (seen leader.other + 2)) := by
  have hne : leader ≠ leader.other := by
    cases leader <;> simp [Peer.other]
  constructor
  · exact hleads.own_eq
  · simpa [hne] using hleads.seen_eq
  · left
    simpa using hbehind

variable [DecidableEq D]

theorem Alternates.afterDeliver (halt : Alternates sch leader own seen duplex)
    (settings : Settings D) (hs : s ∈ duplex.sent) :
    ∃ seen, Alternates sch leader own seen (duplex.deliver settings s) := by
  obtain ⟨e, -, hbound, -, header, _, hmsg, hDHRs⟩ := halt.sent s hs
  have hother : ∀ {seen' : Peer → Nat} {ax : Axolotl D},
      ContextAt sch (own s.sender.other) (seen' s.sender.other) ax →
      (∀ q, q ≠ s.sender.other → seen' q = seen q) →
      ∀ q, ContextAt sch (own q) (seen' q) (update duplex.ax s.sender.other ax q) := by
    intro seen' ax hctx hsame q
    by_cases hq : q = s.sender.other
    · subst hq
      simpa using hctx
    · simpa [hq, hsame q hq] using halt.context q
  rcases tAxDecryptAndValidate_ratchet settings
      (duplex.ax s.sender.other) s.msg with hkeep | ⟨_, hnext, hmove⟩
  · refine ⟨seen, hother ?_ (fun _ _ => rfl), halt.parity, halt.leads,
      halt.fresh, halt.sent, halt.ratchets⟩
    exact (halt.context s.sender.other).sameRatchet hkeep
  · have hctx := halt.context s.sender.other
    rw [hmsg, hctx.NHKr] at hnext
    have hepoch : seen s.sender.other + 2 = e := by
      apply sch.headerKey_injective
      simpa using hnext
    have hown := halt.leads.own_eq
    have hseen := halt.leads.seen_eq
    obtain rfl : s.sender = leader := by
      rcases leader.eq_or_eq_other s.sender with heq | heq
      · exact heq
      · rw [heq] at hepoch hbound
        simp only [Peer.other_other] at hepoch
        omega
    have hbehind : seen s.sender.other + 2 = own s.sender := by
      rcases halt.leads.follower with hsync | hbehind
      · omega
      · exact hbehind
    rw [← hepoch] at hDHRs
    have hcommit := hctx.afterCommit (by omega) hDHRs
    have hheader : tHDecrypt settings (duplex.ax s.sender.other).NHKr s.msg = header := by
      rw [hmsg, hctx.NHKr, hepoch, tHDecrypt_sealMessage]
    rw [hheader] at hmove
    refine ⟨update seen s.sender.other (seen s.sender.other + 2),
      hother ?_ ?_, halt.parity, halt.leads.afterSeen hbehind, halt.fresh,
      halt.sent, halt.ratchets⟩
    · simpa using hcommit.sameRatchet hmove
    · intro q hq
      simp [hq]

end

section

variable [DecidableEq D]

/-- The condition under which the peers ratchet in turn. -/
structure Handshake.BobWaits (h : Handshake D) : Prop where
  not_allowed : (h.old .bob).ratchetAllowed = false
  known : h.announced .bob = .point (h.ratchet .bob)

def Handshake.schedule (h : Handshake D) (fresh : Nat) : KeySchedule D :=
  ⟨h.material, h.ratchet .bob, fresh⟩

theorem Handshake.BobWaits.alternates {h : Handshake D} (hwaits : h.BobWaits) (fresh : Nat) :
    Alternates (h.schedule fresh) .bob Peer.parity (fun p => 1 - p.parity) (h.duplex fresh) := by
  refine ⟨?_, ?_, ⟨rfl, rfl, .inl rfl⟩, rfl, by simp [duplex], by simp [duplex]⟩
  · intro p
    cases p
    · simp only [duplex, ax_alice]
      exact ⟨rfl, by simp [Peer.parity], rfl, fun _ => rfl, rfl,
        by simp [Peer.parity], fun _ => hwaits.known, fun _ => rfl,
        fun _ => rfl⟩
    · simp only [duplex, ax_bob]
      exact ⟨rfl, fun _ => rfl, rfl, by simp [Peer.parity], rfl,
        fun _ => h.old_DHRs .bob, by simp [Peer.parity],
        by simp [hwaits.not_allowed], by simp [Peer.parity]⟩
  · intro p
    cases p <;> rfl

theorem Alternates.afterStep (halt : ∃ leader own seen, Alternates sch leader own seen duplex)
    (hstep : duplex.step settings event = some next) :
    ∃ leader own seen, Alternates sch leader own seen next := by
  obtain ⟨leader, own, seen, halt⟩ := halt
  cases event with
  | send p now message =>
    simp only [step, Option.some.injEq] at hstep
    subst hstep
    obtain ⟨leader, own, hnext⟩ := halt.afterSend settings p now message
    exact ⟨leader, own, seen, hnext⟩
  | deliver i =>
    simp only [step, Option.map_eq_some_iff] at hstep
    obtain ⟨_, hs, rfl⟩ := hstep
    obtain ⟨seen, hnext⟩ := halt.afterDeliver settings (List.mem_of_getElem? hs)
    exact ⟨leader, own, seen, hnext⟩

/-- After an exchange for which bob waits, the root keys of the two peers are
in step in every state that sends and deliveries reach, and no two ratchet
steps of different peers start from one root key. -/
theorem ratchets_alternate (h : Handshake D) (hwaits : h.BobWaits) (fresh : Nat)
    {events : List (DuplexEvent D)} {duplex : Duplex D}
    (hrun : Run (step h.settings) (fun _ _ => True) (h.duplex fresh)
      events duplex) :
    RootKeysInStep duplex ∧ RatchetInTurn duplex := by
  obtain ⟨leader, own, seen, halt⟩ :=
    hrun.invariant
      (fun duplex => ∃ leader own seen, Alternates (h.schedule fresh) leader own seen duplex)
      ⟨_, _, _, hwaits.alternates fresh⟩
      (fun _ _ _ halt _ hstep => Alternates.afterStep halt hstep)
  exact ⟨halt.rootKeysInStep, halt.ratchetInTurn⟩

end

def firstHandshake : Handshake Nat :=
  .created .shipped (Nat.lt_succ_self 1) 0 0 (fun p => 3 + p.parity) (fun p => 5 + p.parity)

theorem ratchets_alternate_first_message :
    firstHandshake.BobWaits ∧ ∃ duplex,
      Run (step firstHandshake.settings) (fun _ _ => True)
        (firstHandshake.duplex 7) [.send .alice 0 0, .deliver 0] duplex ∧
      RootKeysInStep duplex ∧ RatchetInTurn duplex := by
  have hwaits : firstHandshake.BobWaits := ⟨rfl, rfl⟩
  have hrun : Run (step firstHandshake.settings) (fun _ _ => True)
      (firstHandshake.duplex 7) [.send .alice 0 0, .deliver 0] _ :=
    Run.of_exec rfl
  exact ⟨hwaits, _, hrun, ratchets_alternate firstHandshake hwaits 7 hrun⟩

def answeringBob : Axolotl Nat :=
  (((exec (step firstHandshake.settings) (fun _ _ => True)
    (firstHandshake.duplex 7) [.send .alice 0 0, .deliver 0]).getD
    (firstHandshake.duplex 7)).ax .bob)

def secondHandshake : Handshake Nat where
  settings := .shipped
  aliceId := 1
  bobId := 2
  id_lt := Nat.one_lt_two
  aliceNow := 0
  bobNow := 0
  old
    | .alice => .created 8 9
    | .bob => answeringBob
  kx0
    | .alice => 8
    | .bob => 4
  ratchet
    | .alice => 9
    | .bob => 6
  announced
    | .alice => .point 9
    | .bob => .point 6
  old_kx0 p := by cases p <;> rfl
  old_DHRs p := by cases p <;> rfl
  old_Ns p := by cases p <;> decide
  old_Nr p := by cases p <;> decide
  alice_ok := by decide
  bob_ok := by decide

/-- Bob's permission to ratchet survives the second exchange.  When one hour
later bob and alice send at the same time, both ratchet from the new root
key. -/
theorem ratchets_collide :
    ∃ duplex,
      Run (step secondHandshake.settings) (fun _ _ => True)
        (secondHandshake.duplex 10)
        [.send .alice 3600000001 0, .send .bob 3600000001 0] duplex ∧
      ¬ RootKeysInStep duplex ∧ ¬ RatchetInTurn duplex := by
  refine ⟨_, Run.of_exec rfl, ?_, ?_⟩
  · unfold RootKeysInStep OneStepAhead
    decide
  · intro hturn
    exact hturn (secondHandshake.ax .bob).RK (by decide) (by decide)

end Gnunet.Cadet
