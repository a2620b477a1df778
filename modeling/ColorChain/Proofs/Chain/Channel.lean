import ColorChain.Proofs.Chain.NormalForm
import ColorChain.Proofs.Color.Channel

/-!
# Chains channel by channel

A logarithm, its inverse and an exponent act on every channel alone, and so does an affine map that
keeps the channels apart where no other channel shows. A run that meets such maps only gives, in a
channel, a function of this channel.
-/

namespace ColorChain

namespace Op

/-- The operation acts on every channel alone, as far as its zeros go. -/
def KeepsChannels : Op Float Float32 → Prop
  | .affine f => f.KeepsChannels
  | .grade _ | .ungrade _ => False
  | _ => True

/-- What an operation makes of the value of one channel. -/
def onChannel (c : Channel) (x : Float32) : Op Float Float32 → Float32
  | .affine f => f.onChannel c x
  | op => (op.run Stages.standard (Rgba.fill x)).get c

/-- No other channel shows in channel `c` of what the operation makes of the pixel. -/
def Separates (c : Channel) (p : Rgba Float32) : Op Float Float32 → Prop
  | .affine f => f.Separates c p
  | _ => True

instance (c : Channel) (p : Rgba Float32) (op : Op Float Float32) : Decidable (op.Separates c p) :=
  match op with
  | .affine f => inferInstanceAs (Decidable (f.Separates c p))
  | .exponent _ | .log _ | .antilog _ | .grade _ | .ungrade _ => inferInstanceAs (Decidable True)

variable {op : Op Float Float32} {c : Channel} {p : Rgba Float32}

theorem get_run_of_separates (hop : op.KeepsChannels) (h : op.Separates c p) :
    (op.run Stages.standard p).get c = op.onChannel c (p.get c) := by
  cases op with
  | affine f => exact (Affine.KeepsChannels.get_affine_stage_iff hop).mpr (.inl h)
  | exponent value =>
      change (p.zip Elementary.pow value).get c = ((Rgba.fill _).zip Elementary.pow value).get c
      rw [Rgba.get_zip, Rgba.get_zip, Rgba.get_fill]
  | log base => exact Rgba.get_setRgb_map c _ (Rgba.get_fill c _).symm
  | antilog base => exact Rgba.get_setRgb_map c _ (Rgba.get_fill c _).symm
  | grade settings => exact hop.elim
  | ungrade settings => exact hop.elim

/-- Only an exponent changes alpha to more than the positive one of two zeros. -/
theorem onChannel_alpha (hop : op.KeepsChannels) (hexponent : ∀ value, op ≠ .exponent value)
    (h : op.Separates .a p) :
    op.onChannel .a p.a = p.a ∨ (p.a == 0) = true ∧ op.onChannel .a p.a = 0 := by
  cases op with
  | affine f => exact Affine.KeepsChannels.onChannel_alpha hop h
  | exponent value => exact absurd rfl (hexponent value)
  | log base => exact .inl rfl
  | antilog base => exact .inl rfl
  | grade settings => exact hop.elim
  | ungrade settings => exact hop.elim

end Op

namespace Chain

/-- What a chain makes of the value of one channel. -/
def onChannel (c : Channel) (chain : Chain Float Float32) (x : Float32) : Float32 :=
  chain.foldl (fun x op => op.onChannel c x) x

/-- No other channel shows in channel `c` of any stage of the run on the pixel. -/
def Separates (c : Channel) : Chain Float Float32 → Rgba Float32 → Prop
  | [], _ => True
  | op :: chain, p => op.Separates c p ∧ Separates c chain (op.run Stages.standard p)

instance decidableSeparates (c : Channel) :
    (chain : Chain Float Float32) → (p : Rgba Float32) → Decidable (chain.Separates c p)
  | [], _ => inferInstanceAs (Decidable True)
  | op :: chain, p =>
    have := decidableSeparates c chain (op.run Stages.standard p)
    inferInstanceAs (Decidable (op.Separates c p ∧ Separates c chain (op.run Stages.standard p)))

variable {chain : Chain Float Float32} {c : Channel} {p : Rgba Float32}

/-- A run gives in a channel what the chain makes of the value of this channel. -/
theorem get_run_of_separates (hchain : ∀ op ∈ chain, op.KeepsChannels) (h : chain.Separates c p) :
    (chain.run Stages.standard p).get c = chain.onChannel c (p.get c) := by
  induction chain generalizing p with
  | nil => rfl
  | cons op chain ih =>
      rw [List.forall_mem_cons] at hchain
      rw [run_cons, ih hchain.2 h.2, Op.get_run_of_separates hchain.1 h.1]
      rfl

/-- A run without exponents keeps alpha, but a zero of either sign can become positive. -/
theorem alpha_run_of_separates (hchain : ∀ op ∈ chain, op.KeepsChannels)
    (hexponent : ∀ value, .exponent value ∉ chain) (h : chain.Separates .a p) :
    (chain.run Stages.standard p).a = p.a ∨
      (p.a == 0) = true ∧ (chain.run Stages.standard p).a = 0 := by
  induction chain generalizing p with
  | nil => exact .inl rfl
  | cons op chain ih =>
      rw [List.forall_mem_cons] at hchain
      have hrest := ih hchain.2 (fun value hvalue => hexponent value (.tail _ hvalue)) h.2
      have hstep : (op.run Stages.standard p).a = op.onChannel .a p.a :=
        Op.get_run_of_separates (c := .a) hchain.1 h.1
      have halpha := Op.onChannel_alpha hchain.1 (fun value hvalue =>
        hexponent value (hvalue ▸ .head _)) h.1
      rw [run_cons]
      rw [← hstep] at halpha
      rcases halpha with hkept | ⟨hzero, hpositive⟩
      · rwa [hkept] at hrest
      · exact .inr ⟨hzero, hrest.elim (·.trans hpositive) And.right⟩

end Chain

end ColorChain
