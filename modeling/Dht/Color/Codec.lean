/-
# The colour codec

`rgbToCode` names the base colours within distance 100 of a colour, brightest and
darkest shades marked; a colour near none of them is `RGB`, or `RGBD` when almost
black. `codeToRGB` adds the named base colours, saturating, and divides by their
number.

The encoder walks an `unordered_map`, so its order is a parameter. It does not
matter: the base colours are too far apart for a colour to be near two of them.
What is left of a colour is one of five shades, and on the decoder's own output the
codec moves only the darkest one.
-/

import Dht.Core.Outcome
import Mathlib.Algebra.Order.Ring.Abs
import Mathlib.Data.List.Nodup
import Mathlib.Tactic.Linarith

namespace Dht

/-- One pixel. -/
structure RGB where
  r : UInt8
  g : UInt8
  b : UInt8
  deriving DecidableEq

namespace Letter

def R : UInt8 := 'R'.toUInt8
def G : UInt8 := 'G'.toUInt8
def B : UInt8 := 'B'.toUInt8
def L : UInt8 := 'L'.toUInt8
def D : UInt8 := 'D'.toUInt8

end Letter

def red : RGB := ⟨255, 0, 0⟩
def green : RGB := ⟨0, 255, 0⟩
def blue : RGB := ⟨0, 0, 255⟩

/-- `BASE_COLORS`. -/
def baseColors : List (UInt8 × RGB) :=
  [(Letter.R, red), (Letter.G, green), (Letter.B, blue)]

/-- The order in which a program run iterates over the map. -/
structure IterationOrder where
  entries : List (UInt8 × RGB)
  perm : entries.Perm baseColors

/-! ## Encoder -/

/-- The square of `dist`. -/
def RGB.distSq (color base : RGB) : ℤ :=
  ((color.r.toNat : ℤ) - base.r.toNat) ^ 2 + ((color.g.toNat : ℤ) - base.g.toNat) ^ 2 +
    ((color.b.toNat : ℤ) - base.b.toNat) ^ 2

/-- `dist < 100.0`. Squares of the sums involved are exact in a `double`. -/
def RGB.Near (color base : RGB) : Prop := color.distSq base < 10000

instance (color base : RGB) : Decidable (color.Near base) :=
  inferInstanceAs (Decidable (color.distSq base < 10000))

/-- The channel a letter looks at. -/
def RGB.channel (color : RGB) (letter : UInt8) : UInt8 :=
  if letter = Letter.R then color.r else if letter = Letter.G then color.g else color.b

@[simp]
theorem RGB.channel_R (color : RGB) : color.channel Letter.R = color.r := rfl

@[simp]
theorem RGB.channel_G (color : RGB) : color.channel Letter.G = color.g := rfl

@[simp]
theorem RGB.channel_B (color : RGB) : color.channel Letter.B = color.b := rfl

/-- What one entry of the map adds to the code. -/
def codePiece (color : RGB) (entry : UInt8 × RGB) : Bytes :=
  if color.Near entry.2 then
    entry.1 ::
      (if 200 < color.channel entry.1 then [Letter.L]
      else if color.channel entry.1 < 55 then [Letter.D]
      else [])
  else []

/-- `rgbToCode`. -/
def rgbToCode (order : IterationOrder) (color : RGB) : Bytes :=
  let code := order.entries.flatMap (codePiece color)
  if code = [] then
    if color.r < 30 ∧ color.g < 30 ∧ color.b < 30 then ascii "RGBD" else ascii "RGB"
  else code

/-! ## Decoder -/

/-- `std::min(255, (int)(channel + base * factor))`, the factor given in halves. -/
def addChannel (channel base : UInt8) (halves : ℕ) : UInt8 :=
  UInt8.ofNat (min 255 ((2 * channel.toNat + base.toNat * halves) / 2))

/-- The local variables `result` and `count`. -/
structure CodeSum where
  result : RGB
  count : ℤ

/-- The end of one iteration that found a base colour. -/
def CodeSum.add (sum : CodeSum) (base : RGB) (halves : ℕ) : Outcome CodeSum := do
  let count ← intResult (sum.count + 1)
  pure {
    result := {
      r := addChannel sum.result.r base.r halves
      g := addChannel sum.result.g base.g halves
      b := addChannel sum.result.b base.b halves }
    count := count }

/-- The loop over the code. A letter takes the mark behind it along. -/
def codeSum : Bytes → CodeSum → Outcome CodeSum
  | [], sum => .ok sum
  | [c], sum =>
      match baseColors.lookup c with
      | none => .ok sum
      | some base => sum.add base 2
  | c :: next :: rest, sum =>
      match baseColors.lookup c with
      | none => codeSum (next :: rest) sum
      | some base =>
          if next = Letter.L then do
            let sum ← sum.add base 3
            codeSum rest sum
          else if next = Letter.D then do
            let sum ← sum.add base 1
            codeSum rest sum
          else do
            let sum ← sum.add base 2
            codeSum (next :: rest) sum

/-- `result.r /= count`. -/
def divideChannel (channel : UInt8) (count : ℤ) : UInt8 :=
  UInt8.ofNat ((channel.toNat : ℤ) / count).toNat

/-- `codeToRGB`. -/
def codeToRGB (code : Bytes) : Outcome RGB := do
  let sum ← codeSum code ⟨⟨0, 0, 0⟩, 0⟩
  if sum.count = 0 then pure ⟨0, 0, 0⟩
  else pure {
    r := divideChannel sum.result.r sum.count
    g := divideChannel sum.result.g sum.count
    b := divideChannel sum.result.b sum.count }

/-! ## What the encoder tells apart -/

/-- The five classes of colours. -/
inductive Shade
  | red
  | green
  | blue
  | grey
  | nearBlack
  deriving DecidableEq

/-- Every channel is below 30. -/
def RGB.NearBlack (color : RGB) : Prop := color.r < 30 ∧ color.g < 30 ∧ color.b < 30

instance (color : RGB) : Decidable color.NearBlack :=
  inferInstanceAs (Decidable (_ ∧ _ ∧ _))

/-- The shade of a colour. -/
def RGB.shade (color : RGB) : Shade :=
  if color.Near Dht.red then .red
  else if color.Near Dht.green then .green
  else if color.Near Dht.blue then .blue
  else if color.NearBlack then .nearBlack
  else .grey

/-- The colour a shade is decoded to. -/
def Shade.decoded : Shade → RGB
  | .red => Dht.red
  | .green => Dht.green
  | .blue => Dht.blue
  | .grey => ⟨85, 85, 85⟩
  | .nearBlack => ⟨85, 85, 42⟩

/-! ## Base colours are far apart -/

/-- No channel of a near colour is 100 away. -/
theorem RGB.Near.channels {color base : RGB} (hnear : color.Near base) :
    |(color.r.toNat : ℤ) - base.r.toNat| < 100 ∧
      |(color.g.toNat : ℤ) - base.g.toNat| < 100 ∧
      |(color.b.toNat : ℤ) - base.b.toNat| < 100 := by
  have hsum : color.distSq base < 10000 := hnear
  rw [RGB.distSq] at hsum
  have hr := sq_nonneg ((color.r.toNat : ℤ) - base.r.toNat)
  have hg := sq_nonneg ((color.g.toNat : ℤ) - base.g.toNat)
  have hb := sq_nonneg ((color.b.toNat : ℤ) - base.b.toNat)
  refine ⟨?_, ?_, ?_⟩ <;> refine abs_lt_of_sq_lt_sq ?_ (by norm_num) <;> linarith

/-- A colour near a base colour is bright in the channel of its letter and not in
the others. -/
theorem RGB.Near.bright {color : RGB} {entry : UInt8 × RGB} (hentry : entry ∈ baseColors)
    (hnear : color.Near entry.2) :
    155 < (color.channel entry.1).toNat ∧
      ∀ other ∈ baseColors, other ≠ entry → (color.channel other.1).toNat < 100 := by
  obtain ⟨hr, hg, hb⟩ := hnear.channels
  rw [abs_lt] at hr hg hb
  simp only [baseColors, List.mem_cons, List.not_mem_nil, or_false] at hentry ⊢
  rcases hentry with rfl | rfl | rfl <;>
    simp [red, green, blue] at hr hg hb ⊢ <;>
    omega

/-- Near one base colour is near no other. -/
theorem RGB.Near.unique {color : RGB} {first second : UInt8 × RGB}
    (hfirst : first ∈ baseColors) (hsecond : second ∈ baseColors)
    (hnear : color.Near first.2) (hother : color.Near second.2) : first = second := by
  by_contra hne
  have hbright := (hnear.bright hfirst).1
  have hdark := (hother.bright hsecond).2 first hfirst hne
  omega

/-! ## The code of a colour -/

/-- Only the entry of the near base colour adds to the code, at any place of the
iteration. -/
theorem flatMap_codePiece {color : RGB} {entry : UInt8 × RGB} {entries : List (UInt8 × RGB)}
    (hentries : entries ⊆ baseColors) (hnodup : entries.Nodup) (hentry : entry ∈ entries)
    (hnear : color.Near entry.2) :
    entries.flatMap (codePiece color) = codePiece color entry := by
  induction entries with
  | nil => exact absurd hentry List.not_mem_nil
  | cons head tail ih =>
      have hother (other : UInt8 × RGB) (hmem : other ∈ baseColors) (hne : other ≠ entry) :
          codePiece color other = [] := by
        apply if_neg
        intro hboth
        exact hne (hboth.unique hmem (hentries hentry) hnear)
      rw [List.flatMap_cons]
      by_cases hhead : head = entry
      · subst hhead
        have htail : tail.flatMap (codePiece color) = [] := by
          apply List.flatMap_eq_nil_iff.mpr
          intro other hmem
          exact hother other (hentries (List.mem_cons_of_mem _ hmem))
            (ne_of_mem_of_not_mem hmem (List.nodup_cons.mp hnodup).1)
        rw [htail, List.append_nil]
      · rw [hother head (hentries List.mem_cons_self) hhead, List.nil_append]
        exact ih (fun _ hmem => hentries (List.mem_cons_of_mem _ hmem))
          (List.nodup_cons.mp hnodup).2 (List.mem_of_ne_of_mem (Ne.symm hhead) hentry)

/-- The code of a colour near a base colour is what that base colour's entry adds. -/
theorem rgbToCode_eq_codePiece (order : IterationOrder) {color : RGB} {entry : UInt8 × RGB}
    (hentry : entry ∈ baseColors) (hnear : color.Near entry.2) :
    rgbToCode order color = codePiece color entry := by
  have hpiece : order.entries.flatMap (codePiece color) = codePiece color entry :=
    flatMap_codePiece order.perm.subset (order.perm.nodup_iff.mpr (by decide))
      (order.perm.mem_iff.mpr hentry) hnear
  have hne : codePiece color entry ≠ [] := by
    rw [codePiece, if_pos hnear]
    exact List.cons_ne_nil _ _
  rw [rgbToCode, hpiece, if_neg hne]

/-- The code of a colour near a base colour is its letter, with the mark for bright
shades or without one. -/
theorem rgbToCode_of_near (order : IterationOrder) {color : RGB} {entry : UInt8 × RGB}
    (hentry : entry ∈ baseColors) (hnear : color.Near entry.2) :
    rgbToCode order color = [entry.1, Letter.L] ∨ rgbToCode order color = [entry.1] := by
  have hbright := (hnear.bright hentry).1
  have hdark : ¬ color.channel entry.1 < 55 := by
    rw [UInt8.lt_iff_toNat_lt]
    exact Nat.not_lt.mpr (Nat.le_of_lt (Nat.lt_trans (by decide) hbright))
  rw [rgbToCode_eq_codePiece order hentry hnear, codePiece, if_pos hnear, if_neg hdark]
  by_cases hlight : 200 < color.channel entry.1
  · left
    rw [if_pos hlight]
  · right
    rw [if_neg hlight]

/-- The code of a colour near no base colour. -/
theorem rgbToCode_of_not_near (order : IterationOrder) {color : RGB}
    (hfar : ∀ entry ∈ baseColors, ¬ color.Near entry.2) :
    rgbToCode order color = if color.NearBlack then ascii "RGBD" else ascii "RGB" := by
  have hnone : order.entries.flatMap (codePiece color) = [] := by
    apply List.flatMap_eq_nil_iff.mpr
    intro entry hentry
    exact if_neg (hfar entry (order.perm.mem_iff.mp hentry))
  rw [rgbToCode, hnone, if_pos rfl]
  rfl

/-- A colour is near a base colour, or it is one of the two shades of grey. -/
theorem near_or_shade (color : RGB) :
    (∃ entry ∈ baseColors, color.Near entry.2 ∧ color.shade.decoded = entry.2) ∨
      (∀ entry ∈ baseColors, ¬ color.Near entry.2) ∧
        color.shade = if color.NearBlack then .nearBlack else .grey := by
  by_cases hred : color.Near red
  · refine .inl ⟨(Letter.R, red), by decide, hred, ?_⟩
    rw [RGB.shade, if_pos hred]
    rfl
  by_cases hgreen : color.Near green
  · refine .inl ⟨(Letter.G, green), by decide, hgreen, ?_⟩
    rw [RGB.shade, if_neg hred, if_pos hgreen]
    rfl
  by_cases hblue : color.Near blue
  · refine .inl ⟨(Letter.B, blue), by decide, hblue, ?_⟩
    rw [RGB.shade, if_neg hred, if_neg hgreen, if_pos hblue]
    rfl
  · refine .inr ⟨?_, ?_⟩
    · simp [baseColors, hred, hgreen, hblue]
    · rw [RGB.shade, if_neg hred, if_neg hgreen, if_neg hblue]

/-- The order of the iteration does not show in a code. -/
theorem rgbToCode_order (first second : IterationOrder) (color : RGB) :
    rgbToCode first color = rgbToCode second color := by
  rcases near_or_shade color with ⟨entry, hentry, hnear, -⟩ | ⟨hfar, -⟩
  · rw [rgbToCode_eq_codePiece first hentry hnear, rgbToCode_eq_codePiece second hentry hnear]
  · rw [rgbToCode_of_not_near first hfar, rgbToCode_of_not_near second hfar]

/-- A base colour decodes from its letter alone and from its bright shade. -/
theorem codeToRGB_letter {entry : UInt8 × RGB} (hentry : entry ∈ baseColors) :
    codeToRGB [entry.1, Letter.L] = .ok entry.2 ∧ codeToRGB [entry.1] = .ok entry.2 := by
  revert entry
  decide

/-- A colour near a base colour comes back as that base colour. -/
theorem codeToRGB_rgbToCode_of_near (order : IterationOrder) {color : RGB}
    {entry : UInt8 × RGB} (hentry : entry ∈ baseColors) (hnear : color.Near entry.2) :
    codeToRGB (rgbToCode order color) = .ok entry.2 := by
  rcases rgbToCode_of_near order hentry hnear with hcode | hcode
  · rw [hcode, (codeToRGB_letter hentry).1]
  · rw [hcode, (codeToRGB_letter hentry).2]

/-- The codec takes every colour to the colour of its shade. -/
theorem codeToRGB_rgbToCode (order : IterationOrder) (color : RGB) :
    codeToRGB (rgbToCode order color) = .ok color.shade.decoded := by
  rcases near_or_shade color with ⟨entry, hentry, hnear, hshade⟩ | ⟨hfar, hshade⟩
  · rw [codeToRGB_rgbToCode_of_near order hentry hnear, hshade]
  · rw [rgbToCode_of_not_near order hfar, hshade]
    by_cases hblack : color.NearBlack
    · rw [if_pos hblack, if_pos hblack]
      decide
    · rw [if_neg hblack, if_neg hblack]
      decide

/-- Encoding a decoded colour again lifts the darkest shade and keeps the others. -/
theorem shade_decoded (shade : Shade) :
    shade.decoded.shade = if shade = .nearBlack then .grey else shade := by
  cases shade <;> decide

/-- The decoder never returns an almost black colour for a code of the encoder. -/
theorem not_nearBlack_decoded (shade : Shade) : ¬ shade.decoded.NearBlack := by
  cases shade <;> decide

theorem RGB.NearBlack.channel_lt {color : RGB} (hblack : color.NearBlack) (letter : UInt8) :
    (color.channel letter).toNat < 30 := by
  obtain ⟨hr, hg, hb⟩ := hblack
  rw [RGB.channel]
  split
  · exact hr
  · split
    · exact hg
    · exact hb

/-- The darkest shade is what its name says. -/
theorem shade_eq_nearBlack_iff (color : RGB) :
    color.shade = .nearBlack ↔ color.NearBlack := by
  rcases near_or_shade color with ⟨entry, hentry, hnear, hshade⟩ | ⟨hfar, hshade⟩
  · have hbright := (hnear.bright hentry).1
    refine ⟨fun hdark => ?_, fun hblack => ?_⟩
    · rw [hdark] at hshade
      have hbase : ∀ other ∈ baseColors, Shade.nearBlack.decoded ≠ other.2 := by decide
      exact absurd hshade (hbase entry hentry)
    · have hdark := hblack.channel_lt entry.1
      omega
  · by_cases hblack : color.NearBlack
    · simp [hshade, hblack]
    · simp [hshade, hblack]

/-- Codes are never empty and consist of the five letters. -/
theorem rgbToCode_letters (order : IterationOrder) (color : RGB) :
    rgbToCode order color ≠ [] ∧ rgbToCode order color ⊆ ascii "RGBLD" := by
  rcases near_or_shade color with ⟨entry, hentry, hnear, -⟩ | ⟨hfar, -⟩
  · have hletters : ∀ other ∈ baseColors, [other.1, Letter.L] ⊆ ascii "RGBLD" ∧
        [other.1] ⊆ ascii "RGBLD" := by decide
    rcases rgbToCode_of_near order hentry hnear with hcode | hcode
    · rw [hcode]
      exact ⟨List.cons_ne_nil _ _, (hletters entry hentry).1⟩
    · rw [hcode]
      exact ⟨List.cons_ne_nil _ _, (hletters entry hentry).2⟩
  · rw [rgbToCode_of_not_near order hfar]
    split <;> decide

/-! ## When the decoder returns

The one thing that can go wrong is the `int` that counts letters. -/

/-- The number of base letters of a code. -/
def letterCount (code : Bytes) : ℕ := code.countP fun c => (baseColors.lookup c).isSome

theorem letterCount_cons_of_none {c : UInt8} (hc : baseColors.lookup c = none) (code : Bytes) :
    letterCount (c :: code) = letterCount code := by
  rw [letterCount, List.countP_cons_of_neg (by simp [hc])]
  rfl

theorem letterCount_cons_of_some {c : UInt8} {base : RGB}
    (hc : baseColors.lookup c = some base) (code : Bytes) :
    letterCount (c :: code) = letterCount code + 1 := by
  rw [letterCount, List.countP_cons_of_pos (by simp [hc])]
  rfl

/-- A letter is added as long as its number is an `int`. -/
theorem CodeSum.add_of_lt {sum : CodeSum} (hnonneg : 0 ≤ sum.count)
    (hlt : sum.count + 1 < 2 ^ 31) (base : RGB) (halves : ℕ) :
    ∃ next, sum.add base halves = .ok next ∧ next.count = sum.count + 1 := by
  rw [CodeSum.add, intResult, if_pos ⟨by omega, hlt⟩]
  exact ⟨_, rfl, rfl⟩

theorem CodeSum.add_of_not_lt {sum : CodeSum} (hlarge : ¬ sum.count + 1 < 2 ^ 31)
    (base : RGB) (halves : ℕ) : sum.add base halves = undefined := by
  rw [CodeSum.add, intResult, if_neg fun h => hlarge h.2]
  rfl

/-- Adding a letter and going on. -/
theorem exists_add_codeSum_iff {sum : CodeSum} (hnonneg : 0 ≤ sum.count) (base : RGB)
    (halves : ℕ) {rest : Bytes}
    (hrest : ∀ next : CodeSum, 0 ≤ next.count → next.count < 2 ^ 31 →
      ((∃ result, codeSum rest next = .ok result) ↔
        next.count + letterCount rest < 2 ^ 31)) :
    (∃ result, (do
        let next ← sum.add base halves
        codeSum rest next) = .ok result) ↔
      sum.count + (letterCount rest + 1 : ℕ) < 2 ^ 31 := by
  by_cases hlt : sum.count + 1 < 2 ^ 31
  · obtain ⟨next, hadd, hcount⟩ := CodeSum.add_of_lt hnonneg hlt base halves
    rw [hadd]
    simp only [ok_bind]
    rw [hrest next (by omega) (by omega), hcount]
    omega
  · rw [CodeSum.add_of_not_lt hlt]
    refine ⟨fun hreturns => ?_, fun hsmall => ?_⟩
    · obtain ⟨_, hresult⟩ := hreturns
      cases hresult
    · omega

/-- The loop returns exactly as long as the count fits. -/
theorem exists_codeSum_iff (code : Bytes) (sum : CodeSum) (hnonneg : 0 ≤ sum.count)
    (hlt : sum.count < 2 ^ 31) :
    (∃ result, codeSum code sum = .ok result) ↔
      sum.count + letterCount code < 2 ^ 31 := by
  induction code, sum using codeSum.induct with
  | case1 sum =>
      refine ⟨fun _ => ?_, fun _ => ⟨sum, rfl⟩⟩
      simpa [letterCount] using hlt
  | case2 c sum hc =>
      rw [letterCount_cons_of_none hc, codeSum, hc]
      refine ⟨fun _ => ?_, fun _ => ⟨sum, rfl⟩⟩
      simpa [letterCount] using hlt
  | case3 c sum base hc =>
      have hend : sum.add base 2 = (do
          let next ← sum.add base 2
          codeSum [] next) := (bind_pure _).symm
      rw [letterCount_cons_of_some hc, codeSum, hc]
      dsimp only
      rw [hend]
      apply exists_add_codeSum_iff hnonneg base 2
      intro next _ hnext
      refine ⟨fun _ => ?_, fun _ => ⟨next, rfl⟩⟩
      simpa [letterCount] using hnext
  | case4 c next rest sum hc ih =>
      rw [letterCount_cons_of_none hc, codeSum, hc]
      exact ih hnonneg hlt
  | case5 c rest sum base hc ih =>
      rw [letterCount_cons_of_some hc, codeSum, hc, letterCount_cons_of_none (by decide)]
      simp only [if_true]
      exact exists_add_codeSum_iff hnonneg base 3 ih
  | case6 c rest sum base hc hne ih =>
      rw [letterCount_cons_of_some hc, codeSum, hc, letterCount_cons_of_none (by decide)]
      simp only [if_neg hne, if_true]
      exact exists_add_codeSum_iff hnonneg base 1 ih
  | case7 c next rest sum base hc hl hd ih =>
      rw [letterCount_cons_of_some hc, codeSum, hc]
      simp only [if_neg hl, if_neg hd]
      exact exists_add_codeSum_iff hnonneg base 2 ih

/-- A code is decoded exactly if its letters can be counted. -/
theorem exists_codeToRGB_iff (code : Bytes) :
    (∃ color, codeToRGB code = .ok color) ↔ letterCount code < 2 ^ 31 := by
  have hloop := exists_codeSum_iff code ⟨⟨0, 0, 0⟩, 0⟩ le_rfl (by norm_num)
  rw [Int.zero_add] at hloop
  have hcast : (letterCount code : ℤ) < 2 ^ 31 ↔ letterCount code < 2 ^ 31 := by omega
  rw [← hcast, ← hloop, codeToRGB]
  cases hsum : codeSum code ⟨⟨0, 0, 0⟩, 0⟩ with
  | error failure =>
      refine ⟨fun hreturns => ?_, fun hreturns => ?_⟩
      · obtain ⟨_, hcolor⟩ := hreturns
        cases hcolor
      · obtain ⟨_, hresult⟩ := hreturns
        cases hresult
  | ok sum =>
      refine ⟨fun _ => ⟨sum, rfl⟩, fun _ => ?_⟩
      by_cases hzero : sum.count = 0
      · exact ⟨_, by rw [ok_bind, if_pos hzero]; rfl⟩
      · exact ⟨_, by rw [ok_bind, if_neg hzero]; rfl⟩

end Dht
