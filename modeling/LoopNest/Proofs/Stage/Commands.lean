/-
# What commands do

An edit in place is atomic when it asks before it writes. Every operation of a schedule is:
in place it does what the operation on stages does that hands over a new stage or fails, and
where it fails nothing was written. So a command takes effect as a whole or not at all.

What a command does to a stage is said once, for all commands, as an effect: the stage grows
by some loops, gains iteration variables that are no loops, and may get one binding of a
leaf. Whatever commands keep is proved from that.
-/

import LoopNest.Proofs.Stage.Operations
import LoopNest.Stage.Edit

namespace LoopNest

section Transactions

variable {α β : Type} {stage : Stage}

namespace Edit

/-- The edit that makes a change as a whole or not at all. -/
def transaction (change : Stage → Except StageError (α × Stage)) : Edit α := fun stage =>
  match change stage with
  | .ok (answer, next) => .ok answer next
  | .error error => .error error stage

theorem ask_bind_ok {question : Stage → Except StageError α} {answer : α}
    (h : question stage = .ok answer) (next : α → Edit β) :
    (ask question >>= next) stage = next answer stage := by
  change (ask question >>= next).run stage = (next answer).run stage
  simp only [ask, EStateM.run_bind, EStateM.run_get, h, EStateM.run_pure]

theorem ask_bind_error {question : Stage → Except StageError α} {error : StageError}
    (h : question stage = .error error) (next : α → Edit β) :
    (ask question >>= next) stage = .error error stage := by
  change (ask question >>= next).run stage = .error error stage
  simp only [ask, EStateM.run_bind, EStateM.run_get, h]
  rfl

/-- An edit that asks first is a transaction if what follows is one, whatever the answer. -/
theorem ask_bind_eq_transaction {question : Stage → Except StageError α} {next : α → Edit β}
    {change : α → Stage → Except StageError (β × Stage)}
    (h : ∀ answer, next answer = transaction (change answer)) :
    (ask question >>= next) =
      transaction fun stage => question stage >>= fun answer => change answer stage := by
  funext stage
  cases hquestion : question stage with
  | ok answer =>
      rw [ask_bind_ok hquestion, h]
      simp [transaction, hquestion, bind, Except.bind]
  | error error =>
      rw [ask_bind_error hquestion]
      simp [transaction, hquestion, bind, Except.bind]

/-- So is an edit that goes on only if the stage passes a test. -/
theorem test_bind_eq_transaction {test : Stage → Prop} [DecidablePred test] {next : Edit β}
    {error : Stage → StageError} {change : Stage → Except StageError (β × Stage)}
    (h : next = transaction change) :
    (get >>= fun stage => if test stage then next else throw (error stage)) =
      transaction fun stage => if test stage then change stage else throw (error stage) := by
  subst h
  funext stage
  change (if test stage then transaction change else throw (error stage) : Edit β) stage = _
  by_cases htest : test stage
  · simp only [transaction, htest, if_true]
  · simp only [transaction, htest, if_false]
    rfl

theorem splitBy_eq (parent : IterId) (size : SplitSize) :
    splitBy parent size = transaction (·.splitBy parent size) :=
  ask_bind_eq_transaction fun _ => ask_bind_eq_transaction fun _ => rfl

theorem fuse_eq (outer inner : IterId) : fuse outer inner = transaction (·.fuse outer inner) :=
  ask_bind_eq_transaction fun _ => ask_bind_eq_transaction fun _ => test_bind_eq_transaction <|
    ask_bind_eq_transaction fun _ => ask_bind_eq_transaction fun _ => rfl

theorem rebase_eq (parent : IterId) : rebase parent = transaction (·.rebase parent) :=
  ask_bind_eq_transaction fun _ => ask_bind_eq_transaction fun _ => rfl

theorem bindThread_eq (leaf : IterId) (tag : String) :
    bindThread leaf tag = transaction (·.bindThread leaf tag) :=
  ask_bind_eq_transaction fun _ => ask_bind_eq_transaction fun _ => rfl

theorem bindTo_eq (leaf thread : IterId) :
    bindTo leaf thread = transaction fun stage => ((), ·) <$> stage.bindTo leaf thread := by
  simp only [Stage.bindTo, map_bind, map_pure]
  exact ask_bind_eq_transaction fun _ => ask_bind_eq_transaction fun _ => rfl

theorem skip_eq (id : IterId) : skip id = transaction fun stage => ((), ·) <$> stage.skip id := by
  simp only [Stage.skip, map_bind, map_pure]
  exact ask_bind_eq_transaction fun _ => rfl

/-- Wording an answer differently leaves a transaction one. -/
theorem transaction_bind_pure (change : Stage → Except StageError (α × Stage)) (word : α → β) :
    (transaction change >>= fun answer => pure (word answer)) =
      transaction fun stage => Prod.map word id <$> change stage := by
  funext stage
  simp only [bind, EStateM.bind, transaction]
  cases change stage <;> rfl

end Edit

end Transactions

namespace Command

/-- The outcome of a command: its answer and the new stage, or an error. -/
def outcome (stage : Stage) : Command → Except StageError (List IterId × Stage)
  | root name extent => return (stage.addRoot name extent .parallel).map ([·]) id
  | rootVar iv => return (stage.addRootVar iv).map ([·]) id
  | iterVar iv => return (stage.addIterVar iv).map ([·]) id
  | split parent factor =>
    Prod.map (fun loops => [loops.1, loops.2]) id <$> stage.split parent factor
  | splitIntoParts parent parts =>
    Prod.map (fun loops => [loops.1, loops.2]) id <$> stage.splitIntoParts parent parts
  | fuse outer inner => Prod.map ([·]) id <$> stage.fuse outer inner
  | rebase parent => Prod.map ([·]) id <$> stage.rebase parent
  | singleton name => return (stage.singleton name).map ([·]) id
  | threadAxis tag declared dtype => return (stage.threadAxis tag declared dtype).map ([·]) id
  | bindThread leaf tag => Prod.map ([·]) id <$> stage.bindThread leaf tag
  | bindTo leaf thread => ([], ·) <$> stage.bindTo leaf thread
  | skip id => ([], ·) <$> stage.skip id
  | setShape shape => return ([], stage.setShape shape)

theorem perform_eq (command : Command) :
    command.perform = Edit.transaction fun stage => command.outcome stage := by
  cases command with
  | root name extent => rfl
  | rootVar iv => rfl
  | iterVar iv => rfl
  | split parent factor => rw [perform, Edit.splitBy_eq]; exact Edit.transaction_bind_pure _ _
  | splitIntoParts parent parts =>
      rw [perform, Edit.splitBy_eq]
      exact Edit.transaction_bind_pure _ _
  | fuse outer inner => rw [perform, Edit.fuse_eq]; exact Edit.transaction_bind_pure _ _
  | rebase parent => rw [perform, Edit.rebase_eq]; exact Edit.transaction_bind_pure _ _
  | singleton name => rfl
  | threadAxis tag declared dtype => rfl
  | bindThread leaf tag => rw [perform, Edit.bindThread_eq]; exact Edit.transaction_bind_pure _ _
  | bindTo leaf thread =>
      rw [perform, Edit.bindTo_eq]
      refine (Edit.transaction_bind_pure _ _).trans ?_
      simp only [outcome, Functor.map_map]
      rfl
  | skip id =>
      rw [perform, Edit.skip_eq]
      refine (Edit.transaction_bind_pure _ _).trans ?_
      simp only [outcome, Functor.map_map]
      rfl
  | setShape shape => rfl

/-- The iteration variables that a command adds without making them loops. -/
def registers (stage next : Stage) : Command → List IterId
  | iterVar _ | threadAxis _ _ _ | bindThread _ _ => next.ids.drop stage.size
  | _ => []

/-- The loops that a command replaces by others. -/
def transforms : Command → List IterId
  | split parent _ | splitIntoParts parent _ | rebase parent => [parent]
  | fuse outer inner => [outer, inner]
  | _ => []

variable {stage next : Stage} {command : Command} {added : List IterId}
  {relation? : Option Relation} {iv : IterVar} {answer : List IterId}

/-- What a command does to a stage. -/
structure Effect (command : Command) (stage next : Stage) (added : List IterId)
    (relation? : Option Relation) : Prop extends stage.Grows next added relation? where
  ids : next.ids = stage.ids ++ (Stage.newLoops added relation? ++ command.registers stage next)
  transforms : relation?.toList.flatMap Relation.inputs = command.transforms
  threads : next.threads = stage.threads ∨ command.transforms = [] ∧ next.leaves = stage.leaves ∧
    ∃ leaf ∈ stage.leaves, ∃ thread ∈ next.ids, next.threads = stage.threads.insert leaf thread

/-- A command that adds one loop. -/
theorem Effect.of_loop (hgrows : stage.Grows next added relation?)
    (hvars : next.iterVars = stage.iterVars ++ [iv])
    (hloop : Stage.newLoops added relation? = [⟨stage.size⟩])
    (hregisters : command.registers stage next = [])
    (htransforms : relation?.toList.flatMap Relation.inputs = command.transforms)
    (hthreads : next.threads = stage.threads) : command.Effect stage next added relation? where
  toGrows := hgrows
  ids := by rw [hloop, hregisters, Stage.ids_of_append hvars, List.append_nil]
  transforms := htransforms
  threads := .inl hthreads

theorem Effect.of_splitBy {parent : IterId} {size : SplitSize} {loops : IterId × IterId}
    (hsuccess : stage.splitBy parent size = .ok (loops, next))
    (hregisters : command.registers stage next = []) (htransforms : command.transforms = [parent]) :
    ∃ added relation?, command.Effect stage next added relation? := by
  obtain ⟨iv, hiv, hleaf, hgrows, position, rfl⟩ := Stage.splitBy_inv hsuccess
  refine ⟨_, _, hgrows, ?_, htransforms.symm, .inl rfl⟩
  rw [hregisters, Stage.ids_of_append rfl, Stage.ids_of_append rfl]
  simp [Stage.newLoops, Relation.outputs]

/-- A command that adds no loops and consumes none. -/
theorem Effect.of_registers (hroots : next.roots = stage.roots)
    (hrelations : next.relations = stage.relations) (hleaves : next.leaves = stage.leaves)
    (hids : next.ids = stage.ids ++ command.registers stage next)
    (htransforms : command.transforms = [])
    (hthreads : next.threads = stage.threads ∨ ∃ leaf ∈ stage.leaves, ∃ thread ∈ next.ids,
      next.threads = stage.threads.insert leaf thread) : command.Effect stage next [] none where
  toGrows := Stage.grows_nothing hroots hrelations hleaves
  ids := hids
  transforms := htransforms.symm
  threads := hthreads.imp_right fun hbound => ⟨htransforms, hleaves, hbound⟩

/-- Every command that succeeds has an effect. -/
theorem outcome_effect (h : command.outcome stage = .ok (answer, next)) :
    ∃ added relation?, command.Effect stage next added relation? := by
  cases command with
  | root name extent =>
      obtain ⟨-, rfl⟩ := Prod.mk.inj (Except.ok.inj h)
      exact ⟨_, _, Effect.of_loop (stage.grows_addRootVar _) rfl rfl rfl rfl rfl⟩
  | rootVar iv =>
      obtain ⟨-, rfl⟩ := Prod.mk.inj (Except.ok.inj h)
      exact ⟨_, _, Effect.of_loop (stage.grows_addRootVar _) rfl rfl rfl rfl rfl⟩
  | iterVar iv =>
      obtain ⟨-, rfl⟩ := Prod.mk.inj (Except.ok.inj h)
      exact ⟨_, _, Effect.of_registers rfl rfl rfl (Stage.ids_eq_append_drop rfl) rfl (.inl rfl)⟩
  | split parent factor =>
      obtain ⟨⟨loops, nest⟩, hsuccess, heq⟩ := map_eq_ok.mp h
      obtain ⟨-, rfl⟩ := Prod.mk.inj heq
      exact Effect.of_splitBy hsuccess rfl rfl
  | splitIntoParts parent parts =>
      obtain ⟨⟨loops, nest⟩, hsuccess, heq⟩ := map_eq_ok.mp h
      obtain ⟨-, rfl⟩ := Prod.mk.inj heq
      exact Effect.of_splitBy hsuccess rfl rfl
  | fuse outer inner =>
      obtain ⟨⟨fused, nest⟩, hsuccess, heq⟩ := map_eq_ok.mp h
      obtain ⟨-, rfl⟩ := Prod.mk.inj heq
      obtain ⟨outerVar, innerVar, -, -, -, -, hgrows, position, rfl⟩ := Stage.fuse_inv hsuccess
      exact ⟨_, _, Effect.of_loop hgrows rfl rfl rfl rfl rfl⟩
  | rebase parent =>
      obtain ⟨⟨rebased, nest⟩, hsuccess, heq⟩ := map_eq_ok.mp h
      obtain ⟨-, rfl⟩ := Prod.mk.inj heq
      obtain ⟨iv, -, -, hgrows, position, rfl⟩ := Stage.rebase_inv hsuccess
      exact ⟨_, _, Effect.of_loop hgrows rfl rfl rfl rfl rfl⟩
  | singleton name =>
      obtain ⟨-, rfl⟩ := Prod.mk.inj (Except.ok.inj h)
      exact ⟨_, _, Effect.of_loop (stage.grows_singleton name) rfl rfl rfl rfl rfl⟩
  | threadAxis tag declared dtype =>
      obtain ⟨thread, vars, haxis, -⟩ := stage.threadAxis_spec tag declared dtype
      rw [outcome, haxis] at h
      obtain ⟨-, rfl⟩ := Prod.mk.inj (Except.ok.inj h)
      exact ⟨_, _, Effect.of_registers rfl rfl rfl (Stage.ids_eq_append_drop rfl) rfl (.inl rfl)⟩
  | bindThread leaf tag =>
      obtain ⟨⟨thread, nest⟩, hsuccess, heq⟩ := map_eq_ok.mp h
      obtain ⟨-, rfl⟩ := Prod.mk.inj heq
      obtain ⟨iv, -, hleaf, hthread, hnest⟩ := Stage.bindThread_inv hsuccess
      obtain ⟨axis, vars, haxis, hlt⟩ := stage.threadAxis_spec tag none iv.dtype
      rw [haxis] at hthread hnest
      obtain rfl := hthread
      obtain rfl := hnest
      refine ⟨_, _, Effect.of_registers rfl rfl rfl (Stage.ids_eq_append_drop rfl) rfl
        (.inr ⟨leaf, hleaf, thread, Stage.mem_ids.mpr ?_, rfl⟩)⟩
      simpa [Stage.setThread, Stage.size] using hlt
  | bindTo leaf thread =>
      obtain ⟨nest, hsuccess, heq⟩ := map_eq_ok.mp h
      obtain ⟨-, rfl⟩ := Prod.mk.inj heq
      obtain ⟨hthread, hleaf, rfl⟩ := Stage.bindTo_inv hsuccess
      exact ⟨_, _, Effect.of_registers rfl rfl rfl (List.append_nil _).symm rfl
        (.inr ⟨leaf, hleaf, thread, hthread, rfl⟩)⟩
  | skip id =>
      obtain ⟨nest, hsuccess, heq⟩ := map_eq_ok.mp h
      obtain ⟨-, rfl⟩ := Prod.mk.inj heq
      obtain ⟨-, -, hnext⟩ := bind_eq_ok.mp hsuccess
      obtain rfl := Except.ok.inj hnext
      exact ⟨_, _, Effect.of_registers rfl rfl rfl (List.append_nil _).symm rfl (.inl rfl)⟩
  | setShape shape =>
      obtain ⟨-, rfl⟩ := Prod.mk.inj (Except.ok.inj h)
      exact ⟨_, _, Effect.of_registers rfl rfl rfl (List.append_nil _).symm rfl (.inl rfl)⟩

end Command

end LoopNest
