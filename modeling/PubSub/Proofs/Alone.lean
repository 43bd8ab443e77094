import PubSub.World

/-!
# Programs that run alone

What a program answers, and the world that it leaves, when no other thread takes a turn meanwhile.
-/
namespace PubSub

variable {μ α β : Type}

/-- Runs a program by itself. There is no result if it comes to a step that is not possible. -/
def Proc.alone : Proc μ α → World μ → Option (α × World μ)
  | .done a, w => some (a, w)
  | .never, _ => none
  | .step s next, w => (s.run w).bind fun (reply, w) => Proc.alone (next reply) w

namespace Proc

@[simp] theorem alone_done (a : α) (w : World μ) : alone (.done a) w = some (a, w) := rfl

@[simp] theorem alone_step (s : Step μ) (next : s.Reply → Proc μ α) (w : World μ) :
    alone (.step s next) w = (s.run w).bind fun (reply, w) => alone (next reply) w := rfl

@[simp] theorem alone_bind (p : Proc μ α) (f : α → Proc μ β) (w : World μ) :
    alone (p.bind f) w = (alone p w).bind fun (a, w) => alone (f a) w := by
  induction p generalizing w with
  | done a => rfl
  | never => rfl
  | step s next ih =>
    rw [Program.step_bind, alone_step, alone_step, Option.bind_assoc]
    congr 1
    funext result
    exact ih result.1 result.2

end Proc

end PubSub
