import Gnunet.CadetReplay

/-!
# Reordered messages of a tunnel

Within the limits on the distance of a message and on the number of stored keys,
the first delivery of every message gives its plaintext, as long as no switch of
chains stores keys.  At a switch that has keys to store, those are stored under
the header key of the new chain, so that the messages they belong to fail.
-/

namespace Gnunet.Cadet

open Protocol List Duplex

variable {D : Type}

/-- If the message of the `i`-th call of `t_ax_decrypt_and_validate` was not
in an earlier call, the call returns its plaintext. -/
def FirstDeliveryAt (duplex : Duplex D) (i : Nat) : Prop :=
  ∀ r ∈ duplex.received[i]?, (∀ r' ∈ duplex.received.take i, r'.msg ≠ r.msg) →
    ∀ s ∈ duplex.sent, s.msg = r.msg → r.result = some (.data s.plaintext)

instance [DecidableEq D] (duplex : Duplex D) (i : Nat) : Decidable (FirstDeliveryAt duplex i) := by
  unfold FirstDeliveryAt
  infer_instance

def FirstDeliveries (duplex : Duplex D) : Prop :=
  ∀ i, FirstDeliveryAt duplex i

structure Reaches (sch : KeySchedule D)
    (window : Peer → Window maxSkippedKeys) (duplex : Duplex D) : Prop where
  pending : ∀ s ∈ duplex.sent, ∀ prev e n, s.msg = sch.messageAt prev e n s.plaintext →
    (window s.sender.other).Pending (toLex (e, n)) ∨ ∃ r ∈ duplex.received, r.msg = s.msg
  genuine : ∀ r ∈ duplex.received, ∃ s ∈ duplex.sent, s.msg = r.msg
  first : FirstDeliveries duplex

section

variable {sch : KeySchedule D} {leader : Peer} {own : Peer → Nat}
  {texts : Nat → List D} {window : Peer → Window maxSkippedKeys}
  {duplex : Duplex D}

variable {s s' : Sent D}

theorem Session.plaintext_eq (hsession : Session sch leader own texts window duplex)
    (hs : s ∈ duplex.sent) (hs' : s' ∈ duplex.sent) (hmsg : s.msg = s'.msg) :
    s.plaintext = s'.plaintext := by
  obtain ⟨e, n, _, _, _, _, heq⟩ := hsession.sent s hs
  obtain ⟨_, _, _, _, _, _, heq'⟩ := hsession.sent s' hs'
  rw [heq, heq'] at hmsg
  exact sch.messageAt_plaintext hmsg

variable {e n prev : Nat}

theorem Session.msg_eq_of_label (hsession : Session sch leader own texts window duplex)
    (hs : s ∈ duplex.sent) (hs' : s' ∈ duplex.sent)
    (hmsg : s.msg = sch.messageAt prev e n s.plaintext)
    (hmsg' : s'.msg = sch.messageAt prev' e n s'.plaintext) : s.msg = s'.msg := by
  obtain ⟨_, _, _, _, _, htext, heq⟩ := hsession.sent s hs
  obtain ⟨_, _, _, _, _, htext', heq'⟩ := hsession.sent s' hs'
  obtain ⟨rfl, rfl⟩ := sch.messageAt_label (heq.symm.trans hmsg)
  obtain ⟨rfl, rfl⟩ := sch.messageAt_label (heq'.symm.trans hmsg')
  have hplain : s.plaintext = s'.plaintext := by
    rw [htext] at htext'
    exact Option.some.inj htext'
  rw [heq, heq', hplain]

theorem Reaches.afterSend (hreaches : Reaches sch window duplex) {next : Duplex D}
    (hsession : Session sch leader own texts window next) {p : Peer}
    (hpending : (window p.other).Pending (toLex (e, n)))
    (hsent : next.sent = duplex.sent ++ [⟨p, message, sch.messageAt prev e n message⟩])
    (hreceived : next.received = duplex.received) : Reaches sch window next := by
  refine ⟨?_, ?_, ?_⟩
  · intro s hs prev' e' n' hmsg
    rw [hreceived]
    rw [hsent] at hs
    rcases mem_append.mp hs with hold | hnew
    · exact hreaches.pending s hold prev' e' n' hmsg
    · rw [mem_singleton.mp hnew] at hmsg ⊢
      obtain ⟨rfl, rfl⟩ := sch.messageAt_label hmsg
      exact .inl hpending
  · intro r hr
    rw [hreceived] at hr
    obtain ⟨s, hs, hmsg⟩ := hreaches.genuine r hr
    exact ⟨s, by rw [hsent]; exact mem_append_left _ hs, hmsg⟩
  · intro i r hr hfirst s hs hmsg
    rw [hreceived] at hr hfirst
    obtain ⟨s', hs', hmsg'⟩ := hreaches.genuine r (mem_of_getElem? hr)
    have hmem : s' ∈ next.sent := by
      rw [hsent]
      exact mem_append_left _ hs'
    rw [hsession.plaintext_eq hs hmem (hmsg.trans hmsg'.symm)]
    exact hreaches.first i r hr hfirst s' hs' hmsg'

theorem Session.pending_afterDeliver (hsession : Session sch leader own texts window duplex)
    (hs' : s' ∈ duplex.sent) (hbound : e ≤ own s.sender)
    (hparity : e % 2 = s.sender.parity) (hwithin : (window s.sender.other).Within 256 e n)
    (hempty : (window s.sender.other).chain < e → (texts (window s.sender.other).chain).length ≤
        (window s.sender.other).next) (hmsg' : s'.msg = sch.messageAt prev e' n' s'.plaintext)
    (hpending : (window s'.sender.other).Pending (toLex (e', n')))
    (hne : toLex (e', n') ≠ toLex (e, n)) :
    (Function.update window s.sender.other ((window s.sender.other).receive 256 e n).2
      s'.sender.other).Pending (toLex (e', n')) := by
  by_cases hq : s'.sender.other = s.sender.other
  · obtain ⟨_, _, _, _, hparity', htext, heq⟩ := hsession.sent s' hs'
    obtain ⟨rfl, rfl⟩ := sch.messageAt_label (heq.symm.trans hmsg')
    have hsender : s'.sender = s.sender := by
      rw [← s'.sender.other_other, hq, Peer.other_other]
    have hlt := (List.getElem?_eq_some_iff.mp htext).1
    rw [hq] at hpending ⊢
    rw [Function.update_self]
    apply Window.pending_receive hwithin hne hpending
    intro hahead hle
    have hcount := hempty hahead
    obtain ⟨_, _⟩ := hsession.switch_epoch hbound hparity hahead
    rw [hsender] at hparity'
    simp only [Prod.Lex.le_iff, ofLex_toLex] at hle ⊢
    rcases hle with hchain | ⟨hchain, _⟩
    · omega
    · rw [hchain] at hcount
      omega
  · rw [Function.update_of_ne hq]
    exact hpending

variable [DecidableEq D]

/-- The limits of the receiver: no message is more than `MAX_KEY_GAP` ahead,
and no more than `MAX_SKIPPED_KEYS` keys are stored. -/
def KeysWithin (settings : Settings D) (ax : Axolotl D) (msg : EncryptedMessage D) : Prop :=
  if hmacValid ax.HKr msg then
    let header := tHDecrypt settings ax.HKr msg
    header.Ns ≤ ax.Nr + 256 ∧ ax.skipped.length + (header.Ns - ax.Nr) ≤ maxSkippedKeys
  else if hmacValid ax.NHKr msg then
    let header := tHDecrypt settings ax.NHKr msg
    header.PNs ≤ ax.Nr + 256 ∧ header.Ns ≤ 256 ∧
      ax.skipped.length + (header.PNs - ax.Nr) + header.Ns ≤ maxSkippedKeys
  else True

instance (settings : Settings D) (ax : Axolotl D) (msg : EncryptedMessage D) :
    Decidable (KeysWithin settings ax msg) :=
  inferInstanceAs (Decidable (ite _ _ _))

theorem Session.within (hsession : Session sch leader own texts window duplex)
    (hbound : e ≤ own s.sender) (hparity : e % 2 = s.sender.parity)
    (hmsg : s.msg = sch.messageAt (texts (e - 2)).length e n s.plaintext)
    (hleaves : SwitchLeavesNothing settings (duplex.ax s.sender.other) s.msg)
    (hwithin : KeysWithin settings (duplex.ax s.sender.other) s.msg) :
    (window s.sender.other).Within 256 e n ∧ ((window s.sender.other).chain < e →
        (texts (window s.sender.other).chain).length ≤ (window s.sender.other).next) := by
  have hrep := hsession.represents s.sender.other
  have hlength : (duplex.ax s.sender.other).skipped.length =
      (window s.sender.other).skipped.length := by
    rw [hrep.skipped, length_map]
  unfold KeysWithin at hwithin
  unfold SwitchLeavesNothing SwitchStoresNothing at hleaves
  rw [hmsg, hrep.HKr, hrep.NHKr, hrep.Nr] at hleaves
  rw [hmsg, hrep.HKr, hrep.NHKr, hrep.Nr, hlength] at hwithin
  simp only [hmacValid_messageAt, KeySchedule.headerKey_eq_iff,
    decide_eq_true_eq, decide_eq_false_iff_not] at hwithin hleaves
  refine ⟨⟨?_, ?_⟩, ?_⟩
  · rintro rfl
    simpa using hwithin
  · intro hahead
    obtain ⟨heq, _⟩ := hsession.switch_epoch hbound hparity hahead
    rw [if_neg (by omega), if_pos heq.symm, ← heq] at hwithin
    simp only [tHDecrypt_messageAt] at hwithin
    omega
  · intro hahead
    obtain ⟨heq, _⟩ := hsession.switch_epoch hbound hparity hahead
    have hchain : e - 2 = (window s.sender.other).chain := by omega
    rw [if_neg (by omega), if_pos heq.symm, ← heq] at hwithin
    have hnothing := hleaves (by omega) heq.symm
    rw [← heq] at hnothing
    simp only [tHDecrypt_messageAt, hchain] at hwithin hnothing
    have hcount := hsession.bound (window s.sender.other).chain
    by_contra hgap
    rw [keyGap_of_le (by omega) (by omega) (by omega)] at hnothing
    unfold maxKeyGap at hnothing
    omega

theorem Reaches.afterDeliver (hreaches : Reaches sch window duplex)
    (hsession : Session sch leader own texts window duplex) (settings : Settings D)
    (hs : s ∈ duplex.sent) (hbound : e ≤ own s.sender) (hparity : e % 2 = s.sender.parity)
    (hmsg : s.msg = sch.messageAt (texts (e - 2)).length e n s.plaintext)
    (hwithin : (window s.sender.other).Within 256 e n)
    (hempty : (window s.sender.other).chain < e → (texts (window s.sender.other).chain).length ≤
        (window s.sender.other).next) (himplements : Implements sch s.plaintext
      ((window s.sender.other).receive 256 e n)
      (tAxDecryptAndValidate settings (duplex.ax s.sender.other) s.msg)) :
    Reaches sch (Function.update window s.sender.other ((window s.sender.other).receive 256 e n).2)
      (duplex.deliver settings s) := by
  refine ⟨?_, ?_, ?_⟩
  · intro s' hs' prev' e' n' hmsg'
    rcases hreaches.pending s' hs' prev' e' n' hmsg' with
      hpending | ⟨r, hr, hr_msg⟩
    · by_cases hlabel : (e', n') = (e, n)
      · right
        obtain ⟨rfl, rfl⟩ := hlabel
        exact ⟨⟨s.sender.other, s.msg, _⟩, mem_append_right _ (mem_singleton.mpr rfl),
          hsession.msg_eq_of_label hs hs' hmsg hmsg'⟩
      · exact .inl (hsession.pending_afterDeliver hs' hbound hparity
          hwithin hempty hmsg' hpending (toLex.injective.ne hlabel))
    · exact .inr ⟨r, mem_append_left _ hr, hr_msg⟩
  · intro r hr
    rcases mem_append.mp hr with hold | hnew
    · exact hreaches.genuine r hold
    · rw [mem_singleton.mp hnew]
      exact ⟨s, hs, rfl⟩
  · intro i r hr hfirst s' hs' hmsg'
    rcases Nat.lt_trichotomy i duplex.received.length with hlt | rfl | hgt
    · simp only [deliver, getElem?_append_left hlt,
        take_append_of_le_length hlt.le] at hr hfirst
      exact hreaches.first i r hr hfirst s' hs' hmsg'
    · simp only [deliver, getElem?_concat_length,
        Option.mem_some_iff, take_left] at hr hfirst
      subst hr
      have hpending : (window s.sender.other).Pending (toLex (e, n)) := by
        rcases hreaches.pending s hs _ e n hmsg with
          hpending | ⟨r', hr', hr_msg⟩
        · exact hpending
        · exact absurd hr_msg (hfirst r' hr')
      rw [hsession.plaintext_eq hs' hs hmsg', himplements.result,
        if_pos (Window.receive_of_pending hwithin hpending)]
    · have hnone : (duplex.deliver settings s).received[i]? = none := by
        apply getElem?_eq_none
        simp only [deliver, length_append, length_singleton]
        omega
      rw [hnone] at hr
      cases hr

end

/-! ## Whole runs -/

section

variable [DecidableEq D]

def WithinLimits (settings : Settings D) (duplex : Duplex D) : DuplexEvent D → Prop
  | .send _ _ _ => True
  | .deliver i => ∀ s ∈ duplex.sent[i]?,
      KeysWithin settings (duplex.ax s.sender.other) s.msg

instance (settings : Settings D) (duplex : Duplex D) :
    DecidablePred (WithinLimits settings duplex) := fun event => by
  refine event.casesOn ?_ ?_ <;> intros <;> dsimp only [WithinLimits] <;> infer_instance

theorem Reaches.afterStep {settings : Settings D} {duplex next : Duplex D} {event : DuplexEvent D}
    (hinv : Along sch (Reaches sch) duplex)
    (hlimits : WithinLimits settings duplex event) (hkeeps : KeepsKeys settings duplex event)
    (hstep : duplex.step settings event = some next) : Along sch (Reaches sch) next := by
  obtain ⟨leader, own, texts, window, hsession, hreaches⟩ := hinv
  cases event with
  | send p now message =>
    simp only [step, Option.some.injEq] at hstep
    subst hstep
    obtain ⟨leader, own, texts, _, e, n, hnext, hpending, hsent⟩ :=
      hsession.afterSend settings now message hkeeps
    exact ⟨leader, own, texts, window, hnext, hreaches.afterSend hnext hpending hsent rfl⟩
  | deliver i =>
    simp only [step, Option.map_eq_some_iff] at hstep
    obtain ⟨s, hs, rfl⟩ := hstep
    have hmem := mem_of_getElem? hs
    obtain ⟨_, _, _, hbound, hparity, hn, hmsg⟩ := hsession.sent s hmem
    have himplements := hsession.implements settings hbound hparity hn hmsg (hkeeps s hs)
    obtain ⟨hwithin, hempty⟩ := hsession.within hbound hparity hmsg (hkeeps s hs) (hlimits s hs)
    exact ⟨leader, own, texts, _, hsession.afterDeliver settings hmem
        (List.getElem?_eq_some_iff.mp hn).1 himplements,
      hreaches.afterDeliver hsession settings hmem hbound hparity hmsg hwithin hempty himplements⟩

/-- Between two new tunnels that have exchanged their keys, the first delivery
of every message gives its plaintext, in every run within the limits whose
steps keep the keys. -/
theorem first_deliveries_decrypt
    (settings : Settings D) {aliceId bobId : Nat} (id_lt : aliceId < bobId)
    (aliceNow bobNow : Nat) (kx0 ratchet : Peer → Nat) (fresh : Nat)
    {events : List (DuplexEvent D)} {duplex : Duplex D}
    (hrun : Run (step settings)
      (fun duplex event => WithinLimits settings duplex event ∧
        KeepsKeys settings duplex event)
      ((Handshake.created settings id_lt aliceNow bobNow kx0
        ratchet).duplex fresh) events duplex) :
    FirstDeliveries duplex := by
  have hstart := Handshake.created_session settings id_lt aliceNow bobNow kx0 ratchet fresh
  obtain ⟨_, _, _, _, -, hreaches⟩ := hrun.invariant
    (Along _ (Reaches _))
    ⟨_, _, _, _, hstart, by simp [Handshake.duplex], by simp [Handshake.duplex],
      by simp [FirstDeliveries, FirstDeliveryAt, Handshake.duplex]⟩
    fun _ _ _ hinv hguard hstep => Reaches.afterStep hinv hguard.1 hguard.2 hstep
  exact hreaches.first

end

theorem first_deliveries_decrypt_reordered :
    ∃ duplex,
      Run (step .shipped)
        (fun duplex event => WithinLimits .shipped duplex event ∧
          KeepsKeys .shipped duplex event)
        (firstHandshake.duplex 7) reorderedEvents duplex ∧
      duplex.received.length = 2 ∧ FirstDeliveries duplex :=
  Run.exists_of_exec_and (by decide +kernel) fun _ hrun _ =>
    first_deliveries_decrypt .shipped (Nat.lt_succ_self 1) 0 0 _ _ 7 hrun

def lateEvents : List (DuplexEvent Nat) :=
  [.send .bob 0 0, .send .bob 0 1, .deliver 0, .send .alice 0 2, .deliver 2,
    .send .bob 3600000001 3, .deliver 3, .deliver 1]

theorem late_message_fails :
    ∃ duplex,
      Run (step .shipped) (WithinLimits .shipped)
        (firstHandshake.duplex 7) lateEvents duplex ∧
      ¬ FirstDeliveries duplex := by
  obtain ⟨duplex, hrun, hfails⟩ :
      ∃ duplex,
        Run (step .shipped) (WithinLimits .shipped)
          (firstHandshake.duplex 7) lateEvents duplex ∧
        decide (¬ FirstDeliveryAt duplex 3) = true :=
    Run.of_exec_any (by decide +kernel)
  exact ⟨duplex, hrun, fun hfirst => of_decide_eq_true hfails (hfirst 3)⟩

end Gnunet.Cadet
