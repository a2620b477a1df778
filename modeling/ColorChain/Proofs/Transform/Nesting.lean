import ColorChain.Proofs.Transform.Reversal

/-!
# Groups inside groups

A group inside a group says nothing that its children could not say in its place: if it is done they
are taken over as they are, if it is undone from last to first and each turned round. The schedule of
the whole stays the same wherever in the tree this happens, so its outcome does too, be it a chain or
a fault.
-/

namespace ColorChain.Transform

universe u v

variable {α : Type u}

/-- One group that stands among the children of another, anywhere in `t`, has given way to its own
children in `t'`. -/
inductive Unnests : Transform α → Transform α → Prop where
  | forward (d : Direction) (before children after : List (Transform α)) :
      Unnests (.group d (before ++ .group .forward children :: after))
        (.group d (before ++ children ++ after))
  | inverse (d : Direction) (before children after : List (Transform α)) :
      Unnests (.group d (before ++ .group .inverse children :: after))
        (.group d (before ++ children.reverse.map Transform.inverse ++ after))
  | child (d : Direction) (before after : List (Transform α)) {t t' : Transform α}
      (h : Unnests t t') :
      Unnests (.group d (before ++ t :: after)) (.group d (before ++ t' :: after))
  | linear (d : Direction) (settings : DisplaySettings)
      (colorTiming channelView displayed : Option (Transform α)) {t t' : Transform α}
      (h : Unnests t t') :
      Unnests (.display d settings (some t) colorTiming channelView displayed)
        (.display d settings (some t') colorTiming channelView displayed)
  | colorTiming (d : Direction) (settings : DisplaySettings)
      (linear channelView displayed : Option (Transform α)) {t t' : Transform α}
      (h : Unnests t t') :
      Unnests (.display d settings linear (some t) channelView displayed)
        (.display d settings linear (some t') channelView displayed)
  | channelView (d : Direction) (settings : DisplaySettings)
      (linear colorTiming displayed : Option (Transform α)) {t t' : Transform α}
      (h : Unnests t t') :
      Unnests (.display d settings linear colorTiming (some t) displayed)
        (.display d settings linear colorTiming (some t') displayed)
  | displayed (d : Direction) (settings : DisplaySettings)
      (linear colorTiming channelView : Option (Transform α)) {t t' : Transform α}
      (h : Unnests t t') :
      Unnests (.display d settings linear colorTiming channelView (some t))
        (.display d settings linear colorTiming channelView (some t'))

/-! ### Schedules of lists -/

theorem doAll_append (ts us : List (Transform α)) : doAll (ts ++ us) = doAll ts ++ doAll us := by
  simp [doAll_eq_flatMap]

theorem undoAll_append (ts us : List (Transform α)) :
    undoAll (ts ++ us) = undoAll us ++ undoAll ts := by
  simp [undoAll_eq_flatMap]

theorem doAll_mid (before after : List (Transform α)) (t : Transform α) :
    doAll (before ++ t :: after) = doAll before ++ (t.schedule .forward ++ doAll after) := by
  rw [doAll_append, doAll]

theorem undoAll_mid (before after : List (Transform α)) (t : Transform α) :
    undoAll (before ++ t :: after) = undoAll after ++ t.schedule .inverse ++ undoAll before := by
  rw [undoAll_append, undoAll]

/-- Doing the children backwards, each turned round, is undoing them. -/
theorem doAll_reverse_inverse (ts : List (Transform α)) :
    doAll (ts.reverse.map inverse) = undoAll ts := by
  rw [doAll_eq_flatMap, undoAll_eq_flatMap, List.flatMap_map]
  exact List.flatMap_congr fun t _ => schedule_inverse .forward t

/-- Undoing the children backwards, each turned round, is doing them. -/
theorem undoAll_reverse_inverse (ts : List (Transform α)) :
    undoAll (ts.reverse.map inverse) = doAll ts := by
  rw [undoAll_eq_flatMap, doAll_eq_flatMap, ← List.map_reverse, List.reverse_reverse,
    List.flatMap_map]
  exact List.flatMap_congr fun t _ => schedule_inverse .inverse t

/-- A group asks its children for the schedules of both directions and for nothing else. -/
theorem schedule_group_congr {children children' : List (Transform α)}
    (hdo : doAll children = doAll children') (hundo : undoAll children = undoAll children')
    (outer d : Direction) :
    (group d children).schedule outer = (group d children').schedule outer := by
  simp only [schedule, hdo, hundo]

/-! ### Unnesting -/

/-- The schedule does not tell where a group ended. The induction is on the way down to the subgroup;
both directions are needed at every level, since the groups above decide in which one it is read. -/
theorem Unnests.schedule_eq {t t' : Transform α} (h : Unnests t t') (outer : Direction) :
    t.schedule outer = t'.schedule outer := by
  induction h generalizing outer with
  | forward d before children after =>
      have hdo : (group .forward children).schedule .forward = doAll children := rfl
      have hundo : (group .forward children).schedule .inverse = undoAll children := rfl
      refine schedule_group_congr ?_ ?_ outer d
      · rw [doAll_mid, hdo, doAll_append, doAll_append, List.append_assoc]
      · rw [undoAll_mid, hundo, undoAll_append, undoAll_append, List.append_assoc]
  | inverse d before children after =>
      have hdo : (group .inverse children).schedule .forward = undoAll children := rfl
      have hundo : (group .inverse children).schedule .inverse = doAll children := rfl
      refine schedule_group_congr ?_ ?_ outer d
      · rw [doAll_mid, hdo, doAll_append, doAll_append, doAll_reverse_inverse, List.append_assoc]
      · rw [undoAll_mid, hundo, undoAll_append, undoAll_append, undoAll_reverse_inverse,
          List.append_assoc]
  | child d before after _ ih =>
      refine schedule_group_congr ?_ ?_ outer d
      · rw [doAll_mid, doAll_mid, ih]
      · rw [undoAll_mid, undoAll_mid, ih]
  -- a display is an obstacle whatever it holds
  | linear => rfl
  | colorTiming => rfl
  | channelView => rfl
  | displayed => rfl

section

variable {β : Type v}
variable [OfScientific α] [Zero α] [One α] [Add α] [Sub α] [Neg α] [Mul α] [Div α] [BEq α] [LT α]
variable [DecidableLT α] [LE α] [DecidableLE α] [Elementary α] [Precision α β]

/-- Taking the children of a subgroup into the group around it changes neither the operations of a
transform in any direction, nor, if there are none, the fault. -/
theorem compile_eq_of_unnests {t t' : Transform α} (h : Unnests t t') (resolve : Resolver α)
    (d : Direction) :
    (t.compile resolve d : Except (TransformFault α) (Chain α β)) = t'.compile resolve d := by
  rw [compile, compile, h.schedule_eq]

end

/-- A group that is undone, inside another that is undone, inside a third. -/
theorem compile_eq_of_unnests_nested :
    let log : Transform Float := .atom .forward (.log 2.0)
    let gamma : Transform Float := .atom .inverse (.exponent ⟨2.0, 2.0, 2.0, 1.0⟩)
    let range : Transform Float := .atom .forward (.allocation { encoding := .lg2 })
    let t : Transform Float := .group .forward [log, .group .inverse [.group .inverse [gamma, range]]]
    let t' : Transform Float := .group .forward [log, .group .inverse [range.inverse, gamma.inverse]]
    let resolve : Resolver Float := fun _ => .error .document
    Unnests t t' ∧ ∃ chain : Chain Float Float32,
      t.compile resolve .inverse = .ok chain ∧ t'.compile resolve .inverse = .ok chain := by
  intro log gamma range t t' resolve
  have h : Unnests t t' := .child .forward [log] [] (.inverse .inverse [] [gamma, range] [])
  exact ⟨h, _, rfl, (compile_eq_of_unnests h resolve .inverse).symm⟩

end ColorChain.Transform
