import Gnunet.CadetDelivery

/-!
# Delivery and replay over whole runs of a tunnel

The two ends of a new tunnel are followed through any interleaving of sends and
deliveries.  The number of messages of each epoch and the window of each receiver
determine the whole state.  From there on both properties are about windows: a
label is pending until its message is taken, and never again.
-/

namespace Gnunet.Cadet

open Protocol List Function Duplex

variable {D : Type}

/-- `texts` lists the plaintexts of each epoch so far; the number of a message
is its place there. -/
structure Session (sch : KeySchedule D) (leader : Peer) (own : Peer → Nat)
    (texts : Nat → List D) (window : Peer → Window maxSkippedKeys)
    (duplex : Duplex D) : Prop where
  alternates : Alternates sch leader own (fun p => (window p).chain) duplex
  represents : ∀ p, Represents sch (window p) (duplex.ax p)
  Ns : ∀ p, (duplex.ax p).Ns = (texts (own p)).length
  CKs : ∀ p, 1 ≤ own p → (duplex.ax p).CKs =
      chainAfter (sch.chainKey (own p)) (texts (own p)).length
  PNs : ∀ p, 1 ≤ own p → (duplex.ax p).PNs = (texts (own p - 2)).length
  none_before : (texts 0).length = 0
  none_after : ∀ e, own leader < e → (texts e).length = 0
  bound : ∀ e, (texts e).length + 257 ≤ 2 ^ 32
  next_le : ∀ p, (window p).next ≤ (texts (window p).chain).length
  sent : ∀ s ∈ duplex.sent, ∃ e n, 1 ≤ e ∧ e ≤ own s.sender ∧
    e % 2 = s.sender.parity ∧ (texts e)[n]? = some s.plaintext ∧
    s.msg = sch.messageAt (texts (e - 2)).length e n s.plaintext

variable {p : Peer}

section

variable {sch : KeySchedule D} {leader : Peer} {own : Peer → Nat}
  {texts : Nat → List D} {window : Peer → Window maxSkippedKeys}
  {duplex : Duplex D}

theorem Represents.sameReceive {ax ax' : Axolotl D} (hrep : Represents sch w ax)
    (hHKr : ax'.HKr = ax.HKr) (hNHKr : ax'.NHKr = ax.NHKr)
    (hNr : ax'.Nr = ax.Nr) (hCKr : ax'.CKr = ax.CKr)
    (hskipped : ax'.skipped = ax.skipped) : Represents sch w ax' :=
  ⟨hHKr.trans hrep.HKr, hNHKr.trans hrep.NHKr, hNr.trans hrep.Nr,
    hCKr.trans hrep.CKr, hskipped.trans hrep.skipped⟩

section

variable (hsession : Session sch leader own texts window duplex)
include hsession

/-- The ratchet decision changes no label: a new chain is empty. -/
theorem Session.afterRatchet (settings : Settings D) (p : Peer) (now : Nat) :
    ∃ leader own, 1 ≤ own p ∧ Session sch leader own texts window
        (duplex.ratchet settings p now) := by
  have halt := hsession.alternates
  cases hratchets : Cadet.ratchets settings now (duplex.ax p) with
  | false =>
    have hpos := (halt.context p).own_pos hratchets
    refine ⟨leader, own, hpos, halt.afterKeep hratchets, ?_, ?_, ?_, ?_,
      hsession.none_before, hsession.none_after, hsession.bound,
      hsession.next_le, ?_⟩
    all_goals rw [ratchet_of_not_ratchets hratchets]
    · intro q
      by_cases hq : q = p
      · subst hq
        simp only [update_self]
        exact (hsession.represents q).sameReceive rfl rfl rfl rfl rfl
      · simpa [hq] using hsession.represents q
    · intro q
      by_cases hq : q = p
      · subst hq
        simpa using hsession.Ns q
      · simpa [hq] using hsession.Ns q
    · intro q hq_pos
      by_cases hq : q = p
      · subst hq
        simpa using hsession.CKs q hq_pos
      · simpa [hq] using hsession.CKs q hq_pos
    · intro q hq_pos
      by_cases hq : q = p
      · subst hq
        simpa using hsession.PNs q hq_pos
      · simpa [hq] using hsession.PNs q hq_pos
    · exact hsession.sent
  | true =>
    have hanswered := (halt.context p).answered (ratchets_flags hratchets)
    obtain rfl := halt.leads.follower_of_answered hanswered
    have hown := halt.leads.own_eq
    have hempty : (texts (own leader.other + 2)).length = 0 := hsession.none_after _ (by omega)
    have hfresh : duplex.fresh = sch.secret (own leader.other + 2) :=
      halt.fresh.trans (by rw [hown])
    have hCKs := (halt.context leader.other).advance_CKs hanswered settings now hfresh
    refine ⟨leader.other, _, ?_, halt.afterAdvance hratchets, ?_, ?_, ?_,
      ?_, hsession.none_before, ?_, hsession.bound, hsession.next_le, ?_⟩
    · simp
    all_goals try rw [ratchet_of_ratchets hratchets]
    · intro q
      by_cases hq : q = leader.other
      · subst hq
        simp only [update_self]
        exact (hsession.represents leader.other).sameReceive rfl rfl rfl rfl rfl
      · simpa [hq] using hsession.represents q
    · intro q
      by_cases hq : q = leader.other
      · subst hq
        simp [hempty, advanceRatchet]
      · simpa [hq] using hsession.Ns q
    · intro q hq_pos
      by_cases hq : q = leader.other
      · subst hq
        simpa [hempty, chainAfter] using hCKs
      · simp only [update_of_ne hq] at hq_pos ⊢
        exact hsession.CKs q hq_pos
    · intro q hq_pos
      by_cases hq : q = leader.other
      · subst hq
        simpa [advanceRatchet, newEphemeral] using hsession.Ns leader.other
      · simp only [update_of_ne hq] at hq_pos ⊢
        exact hsession.PNs q hq_pos
    · intro e he
      simp only [update_self] at he
      exact hsession.none_after e (by omega)
    · intro s hs
      obtain ⟨e, n, hpos, hbound, hlabel⟩ := hsession.sent s hs
      refine ⟨e, n, hpos, hbound.trans ?_, hlabel⟩
      by_cases hq : s.sender = leader.other
      · simp [hq]
      · simp [hq]

theorem Session.message_eq (hpos : 1 ≤ own p) (message : D) :
    let ax := duplex.ax p
    sealMessage ax.HKs ⟨ax.Ns, ax.PNs, ax.DHRs.publicKey⟩
        (encryptPayload (tHmacDeriveKey ax.CKs (.num 0)) (.data message)) =
      sch.messageAt (texts (own p - 2)).length (own p) (texts (own p)).length message := by
  have hctx := hsession.alternates.context p
  simp only [hctx.HKs hpos, hctx.DHRs hpos, hsession.Ns p, hsession.PNs p hpos, hsession.CKs p hpos]
  rfl

theorem Session.afterEncrypt (hpos : 1 ≤ own p) (hopen : (duplex.ax p).Ns + 257 < 2 ^ 32)
    (message : D) :
    Session sch leader own (update texts (own p) (texts (own p) ++ [message])) window
      (duplex.encrypt p message) := by
  have halt := hsession.alternates
  have hNs := hsession.Ns p
  have hne : ∀ q, q ≠ p → own q ≠ own p := by
    intro q hq heq
    apply hq
    apply Peer.eq_of_parity
    rw [← halt.parity q, ← halt.parity p, heq]
  have hearlier : ∀ q, own q - 2 ≠ own p := by
    intro q
    have := halt.leads.own_le q p
    omega
  have hgrows : ∀ e, texts e <+: update texts (own p) (texts (own p) ++ [message]) e := by
    intro e
    by_cases he : e = own p
    · subst he
      simp
    · simp [he]
  refine ⟨halt.afterEncrypt hpos message, ?_, ?_, ?_, ?_, ?_, ?_, ?_, ?_, ?_⟩
  · intro q
    by_cases hq : q = p
    · subst hq
      simp only [encrypt, update_self]
      exact (hsession.represents q).sameReceive rfl rfl rfl rfl rfl
    · simpa [encrypt, hq] using hsession.represents q
  · intro q
    by_cases hq : q = p
    · subst hq
      simp only [encrypt, update_self, length_append, length_singleton]
      omega
    · simpa [encrypt, hq, hne q hq] using hsession.Ns q
  · intro q hq_pos
    by_cases hq : q = p
    · subst hq
      simp only [encrypt, update_self, length_append, length_singleton]
      rw [hsession.CKs q hpos]
      rfl
    · simpa [encrypt, hq, hne q hq] using hsession.CKs q hq_pos
  · intro q hq_pos
    by_cases hq : q = p
    · subst hq
      simpa [encrypt, hearlier q] using hsession.PNs q hq_pos
    · simpa [encrypt, hq, hearlier q] using hsession.PNs q hq_pos
  · rw [update_of_ne (by omega)]
    exact hsession.none_before
  · intro e he
    have := (halt.leads.own_le_leader p).1
    rw [update_of_ne (by omega)]
    exact hsession.none_after e he
  · intro e
    by_cases he : e = own p
    · subst he
      simp only [update_self, length_append, length_singleton]
      omega
    · simpa [he] using hsession.bound e
  · intro q
    exact (hsession.next_le q).trans (hgrows _).length_le
  · intro s hs
    rcases mem_append.mp hs with hold | hnew
    · obtain ⟨e, n, he, hbound, hparity, hn, hmsg⟩ := hsession.sent s hold
      refine ⟨e, n, he, hbound, hparity, ?_, ?_⟩
      · obtain ⟨_, hrest⟩ := hgrows e
        have hlt := (List.getElem?_eq_some_iff.mp hn).1
        rw [← hrest, getElem?_append_left hlt]
        exact hn
      · have := halt.leads.own_le s.sender p
        rw [update_of_ne (by omega)]
        exact hmsg
    · rw [mem_singleton.mp hnew]
      refine ⟨own p, (texts (own p)).length, hpos, le_rfl, halt.parity p, by simp, ?_⟩
      rw [update_of_ne (hearlier p)]
      exact hsession.message_eq hpos message

theorem Session.next_pending (p : Peer) :
    (window p.other).Pending (toLex (own p, (texts (own p)).length)) := by
  have hseen := (hsession.alternates.leads.seen_le p.other).1
  have hnext := hsession.next_le p.other
  rw [Peer.other_other] at hseen
  left
  simp only [Prod.Lex.le_iff, ofLex_toLex]
  rcases Nat.lt_or_eq_of_le hseen with hlt | heq
  · exact Or.inl hlt
  · right
    rw [heq] at hnext
    exact ⟨heq, hnext⟩

end

theorem Duplex.ratchet_Ns_le (settings : Settings D) (duplex : Duplex D) (p : Peer) (now : Nat) :
    ((duplex.ratchet settings p now).ax p).Ns ≤ (duplex.ax p).Ns := by
  cases hratchets : Cadet.ratchets settings now (duplex.ax p) with
  | false => simp [ratchet_of_not_ratchets hratchets]
  | true => simp [ratchet_of_ratchets hratchets, advanceRatchet]

theorem Session.afterSend (hsession : Session sch leader own texts window duplex)
    (settings : Settings D) (now : Nat) (message : D) (hopen : (duplex.ax p).Ns + 257 < 2 ^ 32) :
    ∃ leader own texts prev e n, Session sch leader own texts window
        (duplex.send settings p now message) ∧ (window p.other).Pending (toLex (e, n)) ∧
      (duplex.send settings p now message).sent =
        duplex.sent ++ [⟨p, message, sch.messageAt prev e n message⟩] := by
  rw [send_eq]
  obtain ⟨leader, own, hpos, hnext⟩ := hsession.afterRatchet settings p now
  have hNs := ratchet_Ns_le settings duplex p now
  refine ⟨leader, own, _, (texts (own p - 2)).length, own p,
    (texts (own p)).length, hnext.afterEncrypt hpos (by omega) message,
    hnext.next_pending p, ?_⟩
  simp only [encrypt]
  rw [hnext.message_eq hpos message]
  rfl

/-! ## Receiving -/

variable {e : Nat}

theorem Session.switch_epoch (hsession : Session sch leader own texts window duplex)
    (hbound : e ≤ own p) (hparity : e % 2 = p.parity) (hahead : (window p.other).chain < e) :
    e = (window p.other).chain + 2 ∧ own p.other = (window p.other).chain + 1 := by
  have hown := hsession.alternates.leads.own_eq
  have hseen := hsession.alternates.leads.seen_eq
  have hfollower := hsession.alternates.leads.follower
  have hparity' := hsession.alternates.parity p
  rcases leader.eq_or_eq_other p with rfl | rfl
  · omega
  · rw [Peer.other_other] at hahead
    omega

variable [DecidableEq D]

def SwitchLeavesNothing (settings : Settings D) (ax : Axolotl D)
    (msg : EncryptedMessage D) : Prop :=
  hmacValid ax.HKr msg = false → hmacValid ax.NHKr msg = true →
    SwitchStoresNothing ax (tHDecrypt settings ax.NHKr msg).PNs

instance (settings : Settings D) (ax : Axolotl D) (msg : EncryptedMessage D) :
    Decidable (SwitchLeavesNothing settings ax msg) :=
  inferInstanceAs (Decidable (_ → _ → _))

theorem Session.implements (hsession : Session sch leader own texts window duplex)
    (settings : Settings D) {s : Sent D} (hbound : e ≤ own s.sender)
    (hparity : e % 2 = s.sender.parity) (hn : (texts e)[n]? = some s.plaintext)
    (hmsg : s.msg = sch.messageAt (texts (e - 2)).length e n s.plaintext)
    (hleaves : SwitchLeavesNothing settings (duplex.ax s.sender.other) s.msg) :
    Implements sch s.plaintext ((window s.sender.other).receive 256 e n)
      (tAxDecryptAndValidate settings (duplex.ax s.sender.other) s.msg) := by
  have hrep := hsession.represents s.sender.other
  have hlt := (List.getElem?_eq_some_iff.mp hn).1
  have hcount := hsession.bound e
  have hcount' := hsession.bound (window s.sender.other).chain
  have hnext := hsession.next_le s.sender.other
  rw [hmsg]
  apply tAxDecryptAndValidate_implements settings hrep
    (hsession.alternates.context s.sender.other) s.plaintext (by omega)
    (by omega)
  intro hahead
  obtain ⟨heq, hown⟩ := hsession.switch_epoch hbound hparity hahead
  have hprev := hsession.bound (e - 2)
  refine ⟨heq, hown, ?_, by omega⟩
  unfold SwitchLeavesNothing at hleaves
  rw [hmsg, hrep.HKr, hrep.NHKr, ← heq] at hleaves
  simpa [KeySchedule.headerKey_eq_iff, Nat.ne_of_lt hahead] using hleaves

theorem Session.afterDeliver (hsession : Session sch leader own texts window duplex)
    (settings : Settings D) (hs : s ∈ duplex.sent)
    (hn : n < (texts e).length) (himplements : Implements sch s.plaintext
      ((window s.sender.other).receive 256 e n)
      (tAxDecryptAndValidate settings (duplex.ax s.sender.other) s.msg)) :
    Session sch leader own texts (update window s.sender.other
        ((window s.sender.other).receive 256 e n).2) (duplex.deliver settings s) := by
  obtain ⟨seen, halt⟩ := hsession.alternates.afterDeliver settings hs
  obtain ⟨hNs, hCKs, hPNs⟩ := tAxDecryptAndValidate_sending settings
    (duplex.ax s.sender.other) s.msg
  have hrep : ∀ q, Represents sch
      (update window s.sender.other ((window s.sender.other).receive 256 e n).2 q)
      ((duplex.deliver settings s).ax q) := by
    intro q
    by_cases hq : q = s.sender.other
    · subst hq
      simpa [deliver] using himplements.represents
    · simpa [deliver, hq] using hsession.represents q
  have hseen : seen = fun q =>
      (update window s.sender.other ((window s.sender.other).receive 256 e n).2 q).chain := by
    funext q
    have hNHKr := (halt.context q).NHKr
    rw [(hrep q).NHKr, KeySchedule.headerKey_eq_iff] at hNHKr
    omega
  rw [hseen] at halt
  refine ⟨halt, hrep, ?_, ?_, ?_, hsession.none_before, hsession.none_after,
    hsession.bound, ?_, hsession.sent⟩
  · intro q
    by_cases hq : q = s.sender.other
    · subst hq
      simpa [deliver, hNs] using hsession.Ns s.sender.other
    · simpa [deliver, hq] using hsession.Ns q
  · intro q hpos
    by_cases hq : q = s.sender.other
    · subst hq
      simpa [deliver, hCKs] using hsession.CKs s.sender.other hpos
    · simpa [deliver, hq] using hsession.CKs q hpos
  · intro q hpos
    by_cases hq : q = s.sender.other
    · subst hq
      simpa [deliver, hPNs] using hsession.PNs s.sender.other hpos
    · simpa [deliver, hq] using hsession.PNs q hpos
  · intro q
    by_cases hq : q = s.sender.other
    · subst hq
      simp only [update_self]
      exact Window.receive_next_le (fun e => (texts e).length) (hsession.next_le s.sender.other) hn
    · simpa [hq] using hsession.next_le q

end

theorem Handshake.created_session [DecidableEq D] (settings : Settings D)
    {aliceId bobId : Nat} (id_lt : aliceId < bobId) (aliceNow bobNow : Nat)
    (kx0 ratchet : Peer → Nat) (fresh : Nat) :
    let h := Handshake.created settings id_lt aliceNow bobNow kx0 ratchet
    Session (h.schedule fresh) .bob Peer.parity (fun _ => [])
      (fun p => Window.empty (1 - p.parity)) (h.duplex fresh) := by
  intro h
  have hwaits : h.BobWaits := ⟨rfl, rfl⟩
  refine ⟨hwaits.alternates fresh, ?_, ?_, ?_, ?_, rfl, fun _ _ => rfl, ?_,
    fun _ => Nat.zero_le _, by simp [duplex]⟩
  · intro p
    cases p
    · simp only [duplex, ax_alice]
      exact ⟨rfl, rfl, rfl, rfl, rfl⟩
    · simp only [duplex, ax_bob]
      exact ⟨rfl, rfl, rfl, rfl, rfl⟩
  · intro p
    cases p
    · simp only [duplex, ax_alice]
      rfl
    · simp only [duplex, ax_bob]
      rfl
  · intro p hpos
    cases p
    · simp [Peer.parity] at hpos
    · simp only [duplex, ax_bob]
      rfl
  · intro p hpos
    cases p
    · simp [Peer.parity] at hpos
    · simp only [duplex, ax_bob]
      rfl
  · simp

end Gnunet.Cadet
