import Gnunet.CadetChannelInOrder

/-!
# Reliable out-of-order delivery

An out-of-order channel passes every message on while its client is ready, and
counts it as the next one: a copy is passed on again, and a message that comes
early makes the receiver acknowledge one that it does not have.  Neither
happens as long as the messages that are passed on come in sequence.
-/

namespace Gnunet.Cadet

open Protocol

variable {P : Type}

/-- Nothing is handed over more often than it was sent, and only what was kept is acknowledged. -/
theorem reliable_channel_sound [DecidableEq P] (opts : ChannelOptions)
    (hreliable : opts.reliable = true) (ownerCcn destCcn : Nat)
    (start link : Link P) (events : List (Side × LinkEvent P))
    (hopened : Link.opened opts ownerCcn destCcn = some start)
    (hrun : Run Link.step
      (fun link event => Timely link event ∧ InSequence link event)
      start events link) (p : Side) :
    (link.channel p.other).handed.Subperm (link.sent p) ∧
      ∀ ack, (link.channel p.other).lastControlQe = some ack → ∀ n,
        n + (link.channel p.other).maxPendingMessages + 1 <
          (link.channel p.other).handed.length + 2 ^ 32 →
        ack.covers (link.channel p.other).maxPendingMessages (midOf n) = true →
        n ∈ link.kept p.other := by
  have hjoined := Joined.run hreliable hopened hrun fun _ _ _ hguard => hguard
  obtain ⟨w, hw⟩ := hjoined.directions p
  obtain ⟨_, hr⟩ := hw.receives
  refine ⟨hw.handed_isPrefix.sublist.subperm, fun ack hack n hn hcovers => ?_⟩
  have hsound : AckSound w w.next ack := by
    rw [hr.control ack hack]
    exact ⟨le_rfl, hr.midRecv, fun i hi => .inr (hr.futures i hi)⟩
  rw [hr.reliable.maxPending] at hn hcovers
  rw [hr.client.handed, hr.handed_length hw.length] at hn
  exact hw.kept n (hsound.received_of_covers hn hcovers)

def outOfOrderOptions : ChannelOptions :=
  { nobuffer := false, reliable := true, outOfOrder := true }

def outOfOrderStart : Link Nat :=
  (Link.opened outOfOrderOptions 0 0).get rfl

def twoMessages : List (Side × LinkEvent Nat) :=
  [(.owner, .localData true 7), (.owner, .localData true 8),
    (.owner, .dataSent 0 0 none), (.owner, .dataSent 0 0 none)]

def inSequenceEvents : List (Side × LinkEvent Nat) :=
  twoMessages ++ [(.dest, .dataArrives true 0), (.dest, .dataArrives true 1),
      (.dest, .dataArrives true 0), (.dest, .localAck true)]

theorem reliable_channel_sound_in_sequence :
    ∃ link, Run Link.step
        (fun link event => Timely link event ∧ InSequence link event)
        outOfOrderStart inSequenceEvents link ∧
      (link.channel .dest).handed = [7, 8] ∧
      (link.channel .dest).handed.Subperm (link.sent .owner) :=
  Run.exists_of_exec_and (by decide +kernel) fun link hrun _ =>
    (reliable_channel_sound outOfOrderOptions rfl 0 0 outOfOrderStart link inSequenceEvents rfl
      hrun .owner).1

def duplicateEvents : List (Side × LinkEvent Nat) :=
  twoMessages ++
    [(.dest, .dataArrives true 0), (.dest, .localAck true), (.dest, .dataArrives true 0)]

def overtakingEvents : List (Side × LinkEvent Nat) :=
  twoMessages ++ [(.dest, .dataArrives true 1)]

theorem out_of_order_channel_unsound :
    (∃ link, Run Link.step (fun _ _ => True) outOfOrderStart duplicateEvents link ∧
      ¬(link.channel .dest).handed.Subperm (link.sent .owner)) ∧
    ∃ link, Run Link.step (fun _ _ => True) outOfOrderStart overtakingEvents link ∧
      ∃ ack, (link.channel .dest).lastControlQe = some ack ∧
        ack.covers 4 (midOf 0) = true ∧ 0 ∉ link.kept .dest := by
  constructor
  · obtain ⟨link, hrun, htwice⟩ :
        ∃ link, Run Link.step (fun _ _ => True) outOfOrderStart duplicateEvents
            link ∧
          decide ((link.sent .owner).count 7 <
            (link.channel .dest).handed.count 7) = true :=
      Run.of_exec_any (by decide +kernel)
    refine ⟨link, hrun, fun hsub => ?_⟩
    exact absurd (hsub.count_le 7) (not_le.mpr (of_decide_eq_true htwice))
  · obtain ⟨link, hrun, hack⟩ :
        ∃ link, Run Link.step (fun _ _ => True) outOfOrderStart overtakingEvents
            link ∧
          decide ((link.channel .dest).lastControlQe =
            some { mid := 2, futures := 0 } ∧ link.kept .dest = [1]) = true :=
      Run.of_exec_any (by decide +kernel)
    obtain ⟨hack, hkept⟩ := of_decide_eq_true hack
    exact ⟨link, hrun, _, hack, by decide, by simp [hkept]⟩

end Gnunet.Cadet
