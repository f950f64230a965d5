import Mathlib.Tactic

/-!
# Paths from the DHT

A result of the DHT comes with the path of the request and that of the storage,
which together lead from here to the peer, with loops cut out.
-/

namespace Gnunet.Cadet

/-- A path whose length is an `unsigned int`. -/
structure DhtPath (Peer : Type) where
  peers : List Peer
  length_lt : peers.length < 2 ^ 32

section

variable {Peer : Type} (getPath putPath : DhtPath Peer)

def totalLen : Nat :=
  (getPath.peers.length + putPath.peers.length) % 2 ^ 32

/-- `none` is a read outside of the array. -/
def pidAt (off : Nat) : Option Peer :=
  if off < getPath.peers.length then getPath.peers[getPath.peers.length - off]?
  else putPath.peers[totalLen getPath putPath - off]?

/-- The first read is one behind the end of the first array that is not empty. -/
theorem pidAt_zero : pidAt getPath putPath 0 = none := by
  have hput := putPath.length_lt
  unfold pidAt totalLen
  split <;> rw [List.getElem?_eq_none]
  · rw [Nat.sub_zero]
  · rw [show getPath.peers.length = 0 by omega, Nat.zero_add, Nat.mod_eq_of_lt hput, Nat.sub_zero]

variable [DecidableEq Peer]

/-- The new peer ends the path; if it is there already, the loop is skipped. -/
def pushPeer (cpath : List Peer) (peer : Peer) : List Peer :=
  (cpath ++ [peer]).take ((cpath ++ [peer]).idxOf peer + 1)

/-- The sequence that `GCPP_try_path_from_dht` looks up, extends or creates. -/
def tryPathFromDht : Option (List Peer) :=
  (List.range (totalLen getPath putPath)).foldlM
    (fun cpath off => (pidAt getPath putPath off).map (pushPeer cpath)) []

/-- The same way without its loops. -/
structure LoopsCut (uncut cpath : List Peer) : Prop where
  nodup : cpath.Nodup
  head_eq : cpath.head? = uncut.head?
  last_eq : cpath.getLast? = uncut.getLast?
  adjacent : ∀ a b, [a, b] <:+: cpath → [a, b] <:+: uncut

omit [DecidableEq Peer] in
theorem LoopsCut.adjacent_concat {uncut cpath : List Peer} (hcut : LoopsCut uncut cpath)
    (hpair : [a, b] <:+: cpath ++ [peer]) : [a, b] <:+: uncut ++ [peer] := by
  rcases List.infix_concat_iff.mp hpair with ⟨front, hfront⟩ | hinside
  · have hsplit : front ++ [a] ++ [b] = cpath ++ [peer] := by simpa using hfront
    obtain ⟨rfl, hpeer⟩ := List.append_inj' hsplit rfl
    cases hpeer
    -- the new peer follows the last one, in both sequences
    have hlast : uncut.getLast? = some a := by simpa using hcut.last_eq.symm
    obtain ⟨back, rfl⟩ := List.getLast?_eq_some_iff.mp hlast
    exact ⟨back, [], by simp⟩
  · exact (hcut.adjacent a b hinside).trans (List.prefix_append _ _).isInfix

theorem LoopsCut.pushPeer {uncut cpath : List Peer} (hcut : LoopsCut uncut cpath) (peer : Peer) :
    LoopsCut (uncut ++ [peer]) (pushPeer cpath peer) := by
  have hprefix : Cadet.pushPeer cpath peer <+: cpath ++ [peer] := List.take_prefix _ _
  refine ⟨?_, ?_, ?_, fun a b hpair => hcut.adjacent_concat (hpair.trans hprefix.isInfix)⟩
  · by_cases hmem : peer ∈ cpath
    · have hlt := List.idxOf_lt_length_of_mem hmem
      rw [Cadet.pushPeer, List.idxOf_append_of_mem hmem, List.take_append_of_le_length hlt]
      exact hcut.nodup.sublist (List.take_sublist _ _)
    · have hnew : (cpath ++ [peer]).Nodup := by simpa using hcut.nodup.concat hmem
      exact hnew.sublist hprefix.sublist
  · rw [Cadet.pushPeer, List.head?_take, if_neg (by simp), List.head?_append, List.head?_append,
      hcut.head_eq]
  · rw [Cadet.pushPeer, List.take_add_one, List.getElem?_idxOf (by simp)]
    simp

/-- However long the paths are, loops are cut out of what was read of them. -/
theorem loopsCut_foldl_pushPeer (peers : List Peer) :
    LoopsCut peers (peers.foldl pushPeer []) := by
  induction peers using List.reverseRecOn with
  | nil => exact ⟨List.nodup_nil, rfl, rfl, fun _ _ hpair => hpair⟩
  | append_singleton peers peer ih =>
    rw [List.foldl_concat]
    exact ih.pushPeer peer

/-- Only without any peers has the path of the DHT its loops cut. -/
theorem tryPathFromDht_iff :
    (∃ cpath, tryPathFromDht getPath putPath = some cpath ∧
        LoopsCut (getPath.peers.reverse ++ putPath.peers.reverse) cpath) ↔
      getPath.peers = [] ∧ putPath.peers = [] := by
  constructor
  · rintro ⟨_, hcpath, hcut⟩
    unfold tryPathFromDht at hcpath
    cases hlen : totalLen getPath putPath with
    | zero =>
      rw [hlen] at hcpath
      cases hcpath
      simpa using hcut.head_eq.symm
    | succ len =>
      rw [hlen, List.range_succ_eq_map, List.foldlM_cons, pidAt_zero] at hcpath
      cases hcpath
  · rintro ⟨hget, hput⟩
    refine ⟨[], ?_, ?_⟩
    · simp [tryPathFromDht, totalLen, hget, hput]
    · rw [hget, hput]
      exact loopsCut_foldl_pushPeer []

end

theorem tryPathFromDht_single : tryPathFromDht ⟨[7], by decide⟩ ⟨[], by decide⟩ = none := by
  decide

end Gnunet.Cadet
