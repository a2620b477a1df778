import ColorChain.Proofs.Outcome
import ColorChain.Proofs.Transform.Tree
import ColorChain.Transform.Compile
import Mathlib.Data.List.Forall2

/-!
# Undoing a transform

The schedule of a transform in the opposite direction is the same schedule from last to first with
every entry turned round. The proof is by induction on the tree for both directions at once: the
direction of a leaf is the product of all directions above it, and a group that is undone visits its
children backwards. Lowering keeps the blocks of the entries apart, so the two chains of a transform
consist of blocks for the same leaves in opposite orders.
-/

namespace ColorChain

universe u v

variable {α : Type u}

/-- The entry in the opposite direction. An obstacle stays what it is. -/
def Step.flip : Step α → Step α
  | .apply atom inverted => .apply atom !inverted
  | .stuck obstacle => .stuck obstacle

theorem Step.flip_flip (step : Step α) : step.flip.flip = step := by
  cases step <;> simp [flip]

theorem Direction.combine_flip (d e : Direction) : d.combine e.flip = (d.combine e).flip := by
  rw [combine_comm, flip_combine, combine_comm]

theorem Direction.flip_eq_unknown_iff (d : Direction) : d.flip = unknown ↔ d = unknown := by
  cases d <;> simp [flip]

namespace Transform

/-- A node turned round has the entries of the other direction. -/
theorem oriented_flip (kind : Kind) (known : Bool → List (Step α))
    (hk : ∀ inverted, known (!inverted) = (known inverted).reverse.map Step.flip) (d : Direction) :
    oriented kind known d.flip = (oriented kind known d).reverse.map Step.flip := by
  cases d with
  | forward => exact hk false
  | inverse => exact hk true
  | unknown => rfl

/-- Undoing children is doing them backwards, each undone. -/
theorem undoAll_eq_reverse {children : List (Transform α)}
    (h : ∀ t ∈ children, t.schedule .inverse = (t.schedule .forward).reverse.map Step.flip) :
    undoAll children = (doAll children).reverse.map Step.flip := by
  induction children with
  | nil => rfl
  | cons t ts ih =>
      have hts := ih fun s hs => h s (List.mem_cons_of_mem t hs)
      rw [undoAll, doAll, hts, h t List.mem_cons_self, List.reverse_append, List.map_append]

theorem reverse_map_flip (steps : List (Step α)) :
    ((steps.reverse.map Step.flip).reverse).map Step.flip = steps := by
  rw [← List.map_reverse, List.reverse_reverse, List.map_map]
  have hf : Step.flip ∘ Step.flip = (id : Step α → Step α) := funext Step.flip_flip
  rw [hf, List.map_id]

/-- The schedule in the opposite direction, at every depth. -/
theorem schedule_flip (d : Direction) (t : Transform α) :
    t.schedule d.flip = (t.schedule d).reverse.map Step.flip := by
  induction t using induction_on_parts generalizing d with
  | step t ih =>
      cases t with
      | atom e a =>
          simp only [schedule, Direction.flip_combine]
          exact oriented_flip _ _ (fun _ => rfl) _
      | display e settings linear colorTiming channelView displayed =>
          simp only [schedule, Direction.flip_combine]
          exact oriented_flip _ _ (fun _ => rfl) _
      | group e children =>
          have hundo : undoAll children = (doAll children).reverse.map Step.flip :=
            undoAll_eq_reverse fun t ht => ih t ht .forward
          simp only [schedule, Direction.flip_combine]
          refine oriented_flip _ _ (fun inverted => ?_) _
          cases inverted with
          | false => simpa using hundo
          | true => simp only [Bool.not_true, Bool.false_eq_true, if_false, if_true, hundo,
              reverse_map_flip]

/-- Turning the root round is the same as asking for the opposite direction. -/
theorem schedule_inverse (d : Direction) (t : Transform α) :
    t.inverse.schedule d = t.schedule d.flip := by
  cases t <;>
    simp only [inverse, setDirection, direction, schedule, Direction.combine_flip,
      Direction.flip_combine]

end Transform

section Lowering

variable {β : Type v}
variable [OfScientific α] [Zero α] [One α] [Add α] [Sub α] [Neg α] [Mul α] [Div α] [BEq α] [LT α]
variable [DecidableLT α] [LE α] [DecidableLE α] [Elementary α] [Precision α β]
variable {resolve : Resolver α}

/-- Lowering succeeds when every entry has its block, and puts the blocks in a row. -/
theorem lower_eq_ok_iff {steps : List (Step α)} {chain : Chain α β} :
    lower resolve steps = .ok chain ↔
      ∃ blocks, List.Forall₂ (fun step block => step.chain resolve = .ok block) steps blocks ∧
        blocks.flatten = chain := by
  induction steps generalizing chain with
  | nil => simp [lower, eq_comm]
  | cons step steps ih =>
      simp only [lower, do_eq_ok_iff, ih]
      constructor
      · rintro ⟨first, hfirst, rest, ⟨blocks, hblocks, rfl⟩, hchain⟩
        exact ⟨first :: blocks, .cons hfirst hblocks, Except.ok.inj hchain⟩
      · rintro ⟨_, hblocks, rfl⟩
        cases hblocks with
        | cons hfirst hrest => exact ⟨_, hfirst, _, ⟨_, hrest, rfl⟩, rfl⟩

/-- An entry that has a block is a leaf. -/
theorem Step.eq_apply_of_chain {step : Step α} {block : Chain α β}
    (h : step.chain resolve = .ok block) : ∃ atom inverted, step = .apply atom inverted := by
  cases step with
  | apply atom inverted => exact ⟨atom, inverted, rfl⟩
  | stuck obstacle => simp [Step.chain] at h

/-- A schedule that can be lowered is a list of leaves with their directions. -/
theorem eq_map_apply_of_blocks {steps : List (Step α)} {blocks : List (Chain α β)}
    (h : List.Forall₂ (fun step block => step.chain resolve = .ok block) steps blocks) :
    ∃ leaves : List (Atom α × Bool), steps = leaves.map fun leaf => .apply leaf.1 leaf.2 := by
  induction h with
  | nil => exact ⟨[], rfl⟩
  | cons hfirst _ ih =>
      obtain ⟨leaves, rfl⟩ := ih
      obtain ⟨atom, inverted, rfl⟩ := Step.eq_apply_of_chain hfirst
      exact ⟨(atom, inverted) :: leaves, rfl⟩

namespace Transform

theorem compile_eq_ok_iff {d : Direction} {t : Transform α} {chain : Chain α β} :
    t.compile resolve d = .ok chain ↔ d ≠ .unknown ∧ lower resolve (t.schedule d) = .ok chain := by
  by_cases h : d = .unknown <;> simp [compile, h]

/-- The chain of one direction and the one of the other consist of blocks of operations for the same
leaves in opposite orders, and every leaf has opposite directions in them. -/
def Mirrored (resolve : Resolver α) (d : Direction) (t : Transform α)
    (chain undone : Chain α β) : Prop :=
  ∃ (leaves : List (Atom α × Bool)) (blocks undoneBlocks : List (Chain α β)),
    t.schedule d = leaves.map (fun leaf => .apply leaf.1 leaf.2) ∧
    t.schedule d.flip = leaves.reverse.map (fun leaf => .apply leaf.1 !leaf.2) ∧
    List.Forall₂ (fun leaf block => leaf.1.chain resolve leaf.2 = .ok block) leaves blocks ∧
    List.Forall₂ (fun leaf block => leaf.1.chain resolve (!leaf.2) = .ok block) leaves
      undoneBlocks ∧
    chain = blocks.flatten ∧ undone = undoneBlocks.reverse.flatten

theorem mirrored_of_compile {d : Direction} {t : Transform α} {chain undone : Chain α β}
    (hc : t.compile resolve d = .ok chain) (hu : t.compile resolve d.flip = .ok undone) :
    Mirrored resolve d t chain undone := by
  obtain ⟨blocks, hblocks, rfl⟩ := lower_eq_ok_iff.mp (compile_eq_ok_iff.mp hc).2
  obtain ⟨undoneBlocks, hundone, rfl⟩ := lower_eq_ok_iff.mp (compile_eq_ok_iff.mp hu).2
  obtain ⟨leaves, hleaves⟩ := eq_map_apply_of_blocks hblocks
  have hflip : t.schedule d.flip = leaves.reverse.map fun leaf => .apply leaf.1 !leaf.2 := by
    rw [schedule_flip, hleaves, ← List.map_reverse, List.map_map]
    rfl
  refine ⟨leaves, blocks, undoneBlocks.reverse, hleaves, hflip, ?_, ?_, rfl, ?_⟩
  · rwa [hleaves, List.forall₂_map_left_iff] at hblocks
  · rw [hflip, List.forall₂_map_left_iff, ← List.forall₂_reverse_iff, List.reverse_reverse]
      at hundone
    exact hundone
  · rw [List.reverse_reverse]

theorem compile_inverse (resolve : Resolver α) (t : Transform α) (d : Direction) :
    (t.inverse.compile resolve d : Except (TransformFault α) (Chain α β)) =
      t.compile resolve d.flip := by
  simp only [compile, schedule_inverse, Direction.flip_eq_unknown_iff]

/-- In the two directions a transform applies the same leaves in opposite orders and directions, each
with its own block of operations in a row. Turning the root round has the same outcome as asking for
the opposite direction, whether that is a chain or a fault. -/
theorem compile_flip (resolve : Resolver α) (t : Transform α) (d : Direction) :
    (∀ chain undone : Chain α β, t.compile resolve d = .ok chain →
      t.compile resolve d.flip = .ok undone → Mirrored resolve d t chain undone) ∧
    (t.inverse.compile resolve d : Except (TransformFault α) (Chain α β)) =
      t.compile resolve d.flip :=
  ⟨fun _ _ hc hu => mirrored_of_compile hc hu, compile_inverse resolve t d⟩

end Transform

end Lowering

namespace Transform

/-- A logarithm and an allocation that is already undone, in a group that is undone. -/
theorem compile_flip_nested :
    let t : Transform Float := .group .inverse [.atom .forward (.log 2.0),
      .group .forward [.atom .inverse (.allocation { encoding := .lg2 })]]
    let resolve : Resolver Float := fun _ => .error .document
    ∃ chain undone : Chain Float Float32, t.compile resolve .forward = .ok chain ∧
      t.compile resolve .inverse = .ok undone ∧ Mirrored resolve .forward t chain undone := by
  intro t resolve
  exact ⟨_, _, rfl, rfl, (compile_flip resolve t .forward).1 _ _ rfl rfl⟩

end Transform

end ColorChain
