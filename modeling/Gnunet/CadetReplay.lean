import Gnunet.CadetSession

/-!
# Replayed messages of a tunnel

A message that a receiver accepts gives the plaintext of the call that made
it, and no message is accepted twice, as long as no switch of chains stores
keys: the keys of the old chain are stored under the header key of the new
one, where a replayed message of the new chain finds them.
-/

namespace Gnunet.Cadet

open Protocol Duplex

variable {D : Type}

def Duplex.accepted (duplex : Duplex D) : List (EncryptedMessage D) :=
  (duplex.received.filter fun r => r.result.isSome).map Received.msg

/-- What is accepted is what was sent, once. -/
structure Intact (duplex : Duplex D) : Prop where
  plaintext : ∀ r ∈ duplex.received, ∀ text ∈ r.result,
    ∀ s ∈ duplex.sent, s.msg = r.msg → text = .data s.plaintext
  once : duplex.accepted.Nodup

/-- A session whose windows have a property. -/
def Along (sch : KeySchedule D) (P : (Peer → Window maxSkippedKeys) → Duplex D → Prop)
    (duplex : Duplex D) : Prop :=
  ∃ leader own texts window, Session sch leader own texts window duplex ∧ P window duplex

structure Unreplayed (sch : KeySchedule D)
    (window : Peer → Window maxSkippedKeys) (duplex : Duplex D) : Prop where
  taken : ∀ r ∈ duplex.received, ∀ text, r.result = some text →
    ∃ prev e n d, r.msg = sch.messageAt prev e n d ∧ text = .data d ∧
      e % 2 = r.receiver.other.parity ∧
      ¬ (window r.receiver).Pending (toLex (e, n))
  once : duplex.accepted.Nodup

section

variable {sch : KeySchedule D} {leader : Peer} {own : Peer → Nat}
  {texts : Nat → List D} {window : Peer → Window maxSkippedKeys}
  {duplex : Duplex D}

theorem Unreplayed.intact (hsession : Session sch leader own texts window duplex)
    (hun : Unreplayed sch window duplex) : Intact duplex := by
  refine ⟨?_, hun.once⟩
  intro r hr text htext s hs hmsg
  obtain ⟨_, _, _, _, hr_msg, rfl, _⟩ := hun.taken r hr text htext
  obtain ⟨_, _, _, _, _, _, hs_msg⟩ := hsession.sent s hs
  rw [hs_msg, hr_msg] at hmsg
  rw [sch.messageAt_plaintext hmsg]

theorem Unreplayed.not_accepted (hun : Unreplayed sch window duplex) {p : Peer}
    (hparity : e % 2 = p.other.parity) (hpending : (window p).Pending (toLex (e, n))) :
    sch.messageAt prev e n d ∉ duplex.accepted := by
  intro hmem
  obtain ⟨r, hr, hmsg⟩ := List.mem_map.mp hmem
  obtain ⟨hr, hsome⟩ := List.mem_filter.mp hr
  obtain ⟨text, htext⟩ := Option.isSome_iff_exists.mp hsome
  obtain ⟨_, _, _, _, hmsg', _, hparity', hnot⟩ := hun.taken r hr text htext
  rw [hmsg'] at hmsg
  obtain ⟨rfl, rfl⟩ := sch.messageAt_label hmsg
  have hreceiver : r.receiver = p := by
    have hother : r.receiver.other = p.other := Peer.eq_of_parity (hparity'.symm.trans hparity)
    rw [← r.receiver.other_other, hother, Peer.other_other]
  rw [hreceiver] at hnot
  exact hnot hpending

variable [DecidableEq D]

theorem Duplex.accepted_deliver (duplex : Duplex D) : (duplex.deliver settings s).accepted =
      if (tAxDecryptAndValidate settings (duplex.ax s.sender.other)
        s.msg).1.isSome then duplex.accepted ++ [s.msg] else duplex.accepted := by
  simp only [Duplex.accepted, deliver, List.filter_append]
  split <;> simp_all

theorem Unreplayed.afterDeliver (hun : Unreplayed sch window duplex) (settings : Settings D)
    {s : Sent D} (hparity : e % 2 = s.sender.parity)
    (hmsg : s.msg = sch.messageAt prev e n s.plaintext)
    (himplements : Implements sch s.plaintext ((window s.sender.other).receive 256 e n)
      (tAxDecryptAndValidate settings (duplex.ax s.sender.other) s.msg)) :
    Unreplayed sch (Function.update window s.sender.other
        ((window s.sender.other).receive 256 e n).2) (duplex.deliver settings s) := by
  have hresult := himplements.result
  have hkeep : ∀ {q l}, ¬ (window q).Pending l → ¬ (Function.update window s.sender.other
        ((window s.sender.other).receive 256 e n).2 q).Pending l := by
    intro q l hnot hpending
    by_cases hq : q = s.sender.other
    · subst hq
      rw [Function.update_self] at hpending
      exact hnot (Window.pending_of_pending_receive hpending)
    · rw [Function.update_of_ne hq] at hpending
      exact hnot hpending
  constructor
  · intro r hr text htext
    rcases List.mem_append.mp hr with hold | hnew
    · obtain ⟨prev', e', n', d, hr_msg, hd, hr_parity, hnot⟩ :=
        hun.taken r hold text htext
      exact ⟨prev', e', n', d, hr_msg, hd, hr_parity, hkeep hnot⟩
    · rw [List.mem_singleton.mp hnew] at htext ⊢
      simp only [hresult] at htext
      split at htext
      next haccept =>
        simp only [Option.some.injEq] at htext
        refine ⟨prev, e, n, s.plaintext, hmsg, htext.symm, ?_, ?_⟩
        · simpa using hparity
        · simpa using (Window.receive_accepts haccept).2
      · cases htext
  · rw [accepted_deliver]
    split
    next hsome =>
      have haccept : ((window s.sender.other).receive 256 e n).1 = true := by
        by_contra hnot
        simp [hresult, hnot] at hsome
      have hfresh : sch.messageAt prev e n s.plaintext ∉ duplex.accepted :=
        hun.not_accepted (by simpa using hparity) (Window.receive_accepts haccept).1
      rw [← hmsg] at hfresh
      rw [← List.concat_eq_append]
      exact List.Nodup.concat hfresh hun.once
    · exact hun.once

end

section

variable [DecidableEq D]

/-- The condition on a step: no chain comes near to `2 ^ 32` messages, and no
switch of chains stores keys of the chain it leaves. -/
def KeepsKeys (settings : Settings D) (duplex : Duplex D) : DuplexEvent D → Prop
  | .send p _ _ => (duplex.ax p).Ns + 257 < 2 ^ 32
  | .deliver i => ∀ s ∈ duplex.sent[i]?,
      SwitchLeavesNothing settings (duplex.ax s.sender.other) s.msg

instance (settings : Settings D) (duplex : Duplex D) :
    DecidablePred (KeepsKeys settings duplex) := fun event => by
  cases event <;> unfold KeepsKeys <;> infer_instance

theorem Unreplayed.afterStep {settings : Settings D} {event : DuplexEvent D}
    (hinv : Along sch (Unreplayed sch) duplex) (hkeeps : KeepsKeys settings duplex event)
    (hstep : duplex.step settings event = some next) : Along sch (Unreplayed sch) next := by
  obtain ⟨leader, own, texts, window, hsession, hun⟩ := hinv
  cases event with
  | send p now message =>
    simp only [step, Option.some.injEq] at hstep
    subst hstep
    obtain ⟨leader, own, texts, _, _, _, hnext, _⟩ := hsession.afterSend settings now message hkeeps
    exact ⟨leader, own, texts, window, hnext, hun.taken, hun.once⟩
  | deliver i =>
    simp only [step, Option.map_eq_some_iff] at hstep
    obtain ⟨s, hs, rfl⟩ := hstep
    have hmem := List.mem_of_getElem? hs
    obtain ⟨_, _, _, hbound, hparity, hn, hmsg⟩ := hsession.sent s hmem
    have himplements := hsession.implements settings hbound hparity hn hmsg (hkeeps s hs)
    exact ⟨leader, own, texts, _, hsession.afterDeliver settings hmem
        (List.getElem?_eq_some_iff.mp hn).1 himplements,
      hun.afterDeliver settings hparity hmsg himplements⟩

/-- Between two new tunnels that have exchanged their keys, every accepted
message gives the plaintext of its sender and no message is accepted twice, in
every run whose steps keep the keys. -/
theorem accepted_messages_intact
    (settings : Settings D) {aliceId bobId : Nat} (id_lt : aliceId < bobId)
    (aliceNow bobNow : Nat) (kx0 ratchet : Peer → Nat) (fresh : Nat)
    {events : List (DuplexEvent D)} {duplex : Duplex D}
    (hrun : Run (step settings) (KeepsKeys settings)
      ((Handshake.created settings id_lt aliceNow bobNow kx0
        ratchet).duplex fresh) events duplex) :
    Intact duplex := by
  have hstart := Handshake.created_session settings id_lt aliceNow bobNow kx0 ratchet fresh
  obtain ⟨_, _, _, _, hsession, hun⟩ := hrun.invariant
    (Along _ (Unreplayed _))
    ⟨_, _, _, _, hstart, by simp [Handshake.duplex], by simp [Handshake.duplex, Duplex.accepted]⟩
    fun _ _ _ hinv hkeeps hstep => Unreplayed.afterStep hinv hkeeps hstep
  exact hun.intact hsession

end

def reorderedEvents : List (DuplexEvent Nat) :=
  [.send .bob 0 0, .send .bob 0 1, .deliver 1, .deliver 0]

theorem accepted_messages_intact_reordered :
    ∃ duplex,
      Run (step .shipped) (KeepsKeys .shipped)
        (firstHandshake.duplex 7) reorderedEvents duplex ∧
      duplex.accepted.length = 2 ∧ Intact duplex :=
  Run.exists_of_exec_and (by decide +kernel) fun _ hrun _ =>
    accepted_messages_intact .shipped (Nat.lt_succ_self 1) 0 0 _ _ 7 hrun

def replayEvents : List (DuplexEvent Nat) :=
  [.send .bob 0 0, .send .bob 0 1, .deliver 0, .send .alice 0 2, .deliver 2,
    .send .bob 3600000001 3, .deliver 3, .send .bob 3600000001 4, .deliver 4,
    .deliver 4]

theorem replay_accepted :
    ∃ duplex,
      Run (step .shipped) (fun _ _ => True)
        (firstHandshake.duplex 7) replayEvents duplex ∧
      ¬ (∀ r ∈ duplex.received, ∀ text ∈ r.result,
        ∀ s ∈ duplex.sent, s.msg = r.msg → text = .data s.plaintext) ∧
      ¬ duplex.accepted.Nodup :=
  Run.exists_of_exec (by decide +kernel)

end Gnunet.Cadet
