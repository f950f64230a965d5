import Mathlib.Tactic

/-!
# An append-only log that several forks share

Every event of the log says that something was added or removed, and carries
the tag of the fork it belongs to.  A reader sees the events with some of the
tags and replays them in order; the replay fails if the events that it sees do
not alternate.
-/

namespace Protocol

variable {Tag : Type}

/-- One event: seen if its tag is visible, and then it must be a change. -/
def replayStep (visible : Tag → Bool) (present : Bool) (event : Tag × Bool) : Option Bool :=
  if visible event.1 then
    if event.2 = present then none else some event.2
  else some present

/-- Whether the thing is there after the events, `none` if they do not
alternate. -/
def replay (visible : Tag → Bool) (log : List (Tag × Bool)) : Option Bool :=
  log.foldlM (replayStep visible) false

variable {visible visible' : Tag → Bool} {log : List (Tag × Bool)} {tag : Tag} {added : Bool}

@[simp] theorem replay_nil : replay visible [] = some false := rfl

theorem replay_concat : replay visible (log ++ [event]) =
      (replay visible log).bind fun present => replayStep visible present event := by
  simp [replay, List.foldlM_append]

theorem replay_concat_visible (hvisible : visible tag = true)
    (hreplay : replay visible log = some (!added)) :
    replay visible (log ++ [(tag, added)]) = some added := by
  rw [replay_concat, hreplay]
  simp [replayStep, hvisible]

theorem replay_concat_hidden (hhidden : visible tag = false) :
    replay visible (log ++ [(tag, added)]) = replay visible log := by
  rw [replay_concat]
  simp [replayStep, hhidden]

theorem replay_congr (hsame : ∀ event ∈ log, visible event.1 = visible' event.1) :
    replay visible log = replay visible' log := by
  induction log using List.reverseRecOn with
  | nil => rfl
  | append_singleton log event ih =>
    rw [replay_concat, replay_concat, ih fun e he => hsame e (by simp [he])]
    simp only [replayStep, hsame event (by simp)]

end Protocol
