import ColorChain.Proofs.Chain.Channel
import ColorChain.Proofs.Transform.Divisors

/-!
# Transforms that act channel by channel

Allocations, logarithms and exponents are meant for every channel alone, and the color channels only
but for exponents. They are compiled to affine maps among other things, and a channel that overflows
in front of such a map turns all others into NaN, alpha among them. This says on which runs that does
not happen, and that the channels are independent there.
-/

namespace ColorChain

/-- Whether transforms of the kind are meant for every channel alone. -/
def Kind.isPerChannel : Kind → Bool
  | allocation | exponent | log => true
  | _ => false

variable {resolve : Resolver Float} {inverted : Bool} {block : Chain Float Float32}

namespace Atom

variable {a : Atom Float}

theorem keepsChannels_of_mem (hkind : a.kind.isPerChannel = true)
    (h : a.chain resolve inverted = .ok block) : ∀ op ∈ block, op.KeepsChannels := by
  cases a with
  | allocation a =>
    simp only [chain, map_eq_ok_iff] at h
    obtain ⟨-, -, rfl⟩ := h
    cases hencoding : a.encoding <;> cases inverted <;>
      simp [Allocation.chain, hencoding, Op.KeepsChannels, Affine.keepsChannels_onColor]
  | exponent exponents =>
    rcases block_cases h with ⟨c, -, hne, -⟩ | ⟨back, -, rfl⟩ | ⟨-, hne, -⟩
    · exact absurd rfl (hne exponents)
    · simp [Op.KeepsChannels]
    · exact absurd rfl (hne exponents)
  | log base =>
    simp only [chain, map_eq_ok_iff] at h
    obtain ⟨-, -, rfl⟩ := h
    cases inverted <;> simp [Op.KeepsChannels]
  | _ => cases hkind

theorem chain_allocation_eq_ok {a : Allocation Float} (h : a.validate.toBool) :
    (allocation a).chain resolve inverted = .ok (a.chain inverted : Chain Float Float32) :=
  map_eq_ok_iff.mpr ⟨(), mapError_eq_ok_iff.mpr
    (exists_unit_eq_ok_iff.mp (exists_eq_ok_of_toBool h)), rfl⟩

theorem chain_log_eq_ok {base : Float} (h : (validateBase base).toBool) :
    (log base).chain resolve inverted =
      .ok (if inverted then [.antilog base] else [.log base] : Chain Float Float32) :=
  map_eq_ok_iff.mpr ⟨(), mapError_eq_ok_iff.mpr
    (exists_unit_eq_ok_iff.mp (exists_eq_ok_of_toBool h)), rfl⟩

theorem exponent_notMem (hkind : a.kind ≠ .exponent) (h : a.chain resolve inverted = .ok block)
    (value : Rgba Float32) : .exponent value ∉ block := by
  rcases block_cases h with ⟨c, -, -, rfl⟩ | ⟨exponents, rfl, -⟩ | ⟨-, -, hops⟩
  · cases inverted <;> simp
  · exact absurd rfl hkind
  · exact fun hop => (hops _ hop).2 value rfl

end Atom

namespace Transform

variable {d : Direction} {effort : Effort} {t : Transform Float} {chain : Chain Float Float32}

theorem keepsChannels_of_mem (hkinds : ∀ a e, LeafAt a e d t → a.kind.isPerChannel = true)
    (h : t.chain resolve d effort = .ok chain) : ∀ op ∈ chain, op.KeepsChannels := by
  obtain ⟨compiled, hcompiled, rfl⟩ := map_eq_ok_iff.mp h
  refine Chain.forall_optimize (fun _ _ hf hg => hf.after hg) effort fun op hop => ?_
  obtain ⟨a, e, block, hleaf, hblock, hop⟩ := (mem_compile_iff hcompiled).mp hop
  exact Atom.keepsChannels_of_mem (hkinds a e hleaf) hblock op hop

theorem exponent_notMem (hkinds : ∀ a e, LeafAt a e d t → a.kind ≠ .exponent)
    (h : t.chain resolve d effort = .ok chain) (value : Rgba Float32) :
    .exponent value ∉ chain := by
  rw [mem_chain_iff h rfl]
  rintro ⟨⟨a, e, block, hleaf, hblock, hop⟩, -⟩
  exact Atom.exponent_notMem (hkinds a e hleaf) hblock value hop

/-- In a transform of allocations, logarithms and exponents that compiles, pixels that agree on a
channel have images that agree on it, as long as no other channel shows in it in either run; without
exponents alpha is kept then, up to the sign of zero. The condition is exact at every stage: where it
fails, the channel is not what its own element and offset make of it, unless they make NaN of it. -/
theorem channels_independent (hkinds : ∀ a e, LeafAt a e d t → a.kind.isPerChannel = true)
    (h : t.chain resolve d effort = .ok chain) :
    (∀ c p q, p.get c = q.get c → chain.Separates c p → chain.Separates c q →
      (chain.run Stages.standard p).get c = (chain.run Stages.standard q).get c) ∧
    ((∀ a e, LeafAt a e d t → a.kind ≠ .exponent) → ∀ p, chain.Separates .a p →
      (chain.run Stages.standard p).a = p.a ∨
        (p.a == 0) = true ∧ (chain.run Stages.standard p).a = 0) ∧
    ∀ f, .affine f ∈ chain → ∀ c p,
      ((Stages.standard.affine f p).get c = f.onChannel c (p.get c) ↔
        f.Separates c p ∨ (f.onChannel c (p.get c)).isNaN = true) := by
  have hchain := keepsChannels_of_mem hkinds h
  refine ⟨fun c p q hagree hp hq => ?_, fun hexponent p hp => ?_, fun f hf c p => ?_⟩
  · rw [Chain.get_run_of_separates hchain hp, Chain.get_run_of_separates hchain hq, hagree]
  · exact Chain.alpha_run_of_separates hchain (exponent_notMem hexponent h) hp
  · exact Affine.KeepsChannels.get_affine_stage_iff (hchain _ hf)

/-- Two allocations fused in front of a logarithm, for two pixels that agree on green only. -/
theorem channels_independent_green :
    let resolve : Resolver Float := fun _ => .error .document
    let first : Allocation Float := { vars := [0, 4, 0] }
    let next : Allocation Float := { vars := [1, 3, 0] }
    let t : Transform Float := .group .forward [.atom .forward (.allocation first),
      .atom .inverse (.allocation next), .atom .forward (.log 2)]
    let p : Rgba Float32 := ⟨8, 2, -0.5, 1⟩
    let q : Rgba Float32 := ⟨-3, 2, 1e38, 0⟩
    ∃ chain : Chain Float Float32, t.chain resolve .forward .lossless = .ok chain ∧
      chain.Separates .g p ∧ chain.Separates .g q ∧
      (chain.run Stages.standard p).g = (chain.run Stages.standard q).g ∧
      ((chain.run Stages.standard p).a = p.a ∨
        (p.a == 0) = true ∧ (chain.run Stages.standard p).a = 0) := by
  intro resolve first next t p q
  have hfirst : (Atom.allocation first).chain resolve false =
      .ok (first.chain false : Chain Float Float32) := Atom.chain_allocation_eq_ok (by decide +kernel)
  have hnext : (Atom.allocation next).chain resolve true =
      .ok (next.chain true : Chain Float Float32) := Atom.chain_allocation_eq_ok (by decide +kernel)
  have hlog : (Atom.log 2).chain resolve false = .ok ([.log 2] : Chain Float Float32) :=
    Atom.chain_log_eq_ok (by decide +kernel)
  have hcompile : t.compile resolve .forward =
      .ok (first.chain false ++ (next.chain true ++ [.log 2]) : Chain Float Float32) :=
    compile_eq_ok_iff.mpr ⟨nofun, lower_eq_ok_iff.mpr
      ⟨_, .cons hfirst (.cons hnext (.cons hlog .nil)), rfl⟩⟩
  let chain : Chain Float Float32 :=
    Chain.optimize .lossless (first.chain false ++ (next.chain true ++ [.log 2]))
  have hchain : t.chain resolve .forward .lossless = .ok chain :=
    map_eq_ok_iff.mpr ⟨_, hcompile, rfl⟩
  have hkinds : ∀ a e, LeafAt a e .forward t → a.kind.isPerChannel = true ∧ a.kind ≠ .exponent := by
    intro a e hleaf
    simp only [t, leafAt_group_iff, List.mem_cons, List.not_mem_nil, or_false, exists_eq_or_imp,
      exists_eq_left, leafAt_atom_iff] at hleaf
    rcases hleaf with ⟨rfl, -⟩ | ⟨rfl, -⟩ | ⟨rfl, -⟩ <;> exact ⟨rfl, nofun⟩
  have hp : chain.Separates .g p := by decide +kernel
  have hq : chain.Separates .g q := by decide +kernel
  have halpha : chain.Separates .a p := by decide +kernel
  have hrun := channels_independent (fun a e hleaf => (hkinds a e hleaf).1) hchain
  exact ⟨chain, hchain, hp, hq, hrun.1 .g p q rfl hp hq,
    hrun.2.1 (fun a e hleaf => (hkinds a e hleaf).2) p halpha⟩

/-- Red overflows in the first of two allocations, and in the second one green, blue and alpha become
NaN. -/
theorem overflow_shows_in_green :
    let resolve : Resolver Float := fun _ => .error .document
    let first : Allocation Float := { vars := [0, 1e38, 0] }
    let next : Allocation Float := { vars := [0, 2, 0] }
    let t : Transform Float :=
      .group .forward [.atom .inverse (.allocation first), .atom .inverse (.allocation next)]
    let p : Rgba Float32 := ⟨10, 0.5, 0.5, 1⟩
    let q : Rgba Float32 := ⟨1, 0.5, 0.5, 1⟩
    (∀ a e, LeafAt a e .forward t → a.kind = .allocation) ∧
      (∀ x ∈ first.vars ++ next.vars, x.isFinite = true) ∧
      ∃ chain : Chain Float Float32, t.chain resolve .forward .none = .ok chain ∧
        p.g = q.g ∧ (chain.run Stages.standard p).g ≠ (chain.run Stages.standard q).g ∧
        (chain.run Stages.standard p).a ≠ p.a := by
  intro resolve first next t p q
  have hfirst : (Atom.allocation first).chain resolve true =
      .ok (first.chain true : Chain Float Float32) := Atom.chain_allocation_eq_ok (by decide +kernel)
  have hnext : (Atom.allocation next).chain resolve true =
      .ok (next.chain true : Chain Float Float32) := Atom.chain_allocation_eq_ok (by decide +kernel)
  have hcompile : t.compile resolve .forward =
      .ok (first.chain true ++ next.chain true : Chain Float Float32) :=
    compile_eq_ok_iff.mpr ⟨nofun, lower_eq_ok_iff.mpr ⟨_, .cons hfirst (.cons hnext .nil), rfl⟩⟩
  refine ⟨?_, by decide +kernel, _, map_eq_ok_iff.mpr ⟨_, hcompile, rfl⟩, rfl, ?_, ?_⟩
  · intro a e hleaf
    simp only [t, leafAt_group_iff, List.mem_cons, List.not_mem_nil, or_false, exists_eq_or_imp,
      exists_eq_left, leafAt_atom_iff] at hleaf
    rcases hleaf with ⟨rfl, -⟩ | ⟨rfl, -⟩ <;> rfl
  · decide +kernel
  · decide +kernel

end Transform

end ColorChain
