import PubSub.Proofs.Stories

/-!
# Posts on the publisher's thread

Whatever the handlers do, and whatever other threads do meanwhile: a post that the publisher's thread
delivers, and that comes to its end, has run a prefix of the handlers that it selected, has told
everyone about each failure before it went on, and answers what their reactions and the policy of the
bus demand.
-/
namespace PubSub

open Activities

variable {μ α : Type}

theorem Kept.of_answered {last : World μ} {id : PostId} {stages : List PostStage}
    {story : List Occurrence} {outcome : Outcome} (h : Kept last id stages story)
    (hanswered : .answered id outcome ∈ story) :
    (∃ matched ran, IsSelection id matched ∧
      story = .selected id matched :: (ran.flatMap last.told ++ [.answered id outcome]) ∧
      ∀ policy, (∀ i ∈ matched, (last.bus i.bus).settings.policy = policy) →
        last.Dispatch policy [] matched ran outcome) ∨
    ∃ matched lines, story = .selected id matched :: lines ∧ Handed last id stages matched lines := by
  cases h with
  | unborn => cases hanswered
  | numbered => cases hanswered
  | started _ _ about =>
    rcases List.mem_cons.mp hanswered with heq | hmem
    · cases heq
    · cases about _ hmem
  | @answered matched lines outcome' selection isLocal answers =>
    cases answers with
    | handedOver submitted => exact absurd submitted (isLocal _)
    | @dispatched ran _ dispatch =>
      have hsame : outcome = outcome' := by
        rcases List.mem_cons.mp hanswered with heq | hmem
        · cases heq
        rcases List.mem_append.mp hmem with hmem | hmem
        · obtain ⟨x, -, hx⟩ := List.mem_flatMap.mp hmem
          cases World.invocation?_of_mem_told hx
        · cases List.mem_singleton.mp hmem
          rfl
      exact .inl ⟨matched, ran, selection, hsame ▸ rfl, hsame ▸ dispatch⟩
  | handed h => exact .inr ⟨_, _, rfl, h⟩

end PubSub
