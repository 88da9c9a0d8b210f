/-
# Codes as units

A code is read in units: a base letter and the mark behind it, if there is one. What is
no part of a unit is skipped. `scanCode` says where the decoder cuts, and the decoder
then is a fold over the units: the accumulator of a channel depends only on how many units
of its letter are dark and whether one of them is not.

`isValidCode` looks at one character at a time and so knows nothing of units: a mark is
fine with it wherever it stands.
-/

import Dht.Color.Codec
import Mathlib.Data.List.Chain

namespace Dht

/-! ## Units -/

/-- The three channels. -/
inductive Channel
  | r
  | g
  | b
  deriving DecidableEq

/-- The letter of a channel in `BASE_COLORS`. -/
def Channel.letter : Channel → UInt8
  | .r => Letter.R
  | .g => Letter.G
  | .b => Letter.B

/-- The base colour of its letter. -/
def Channel.base : Channel → RGB
  | .r => red
  | .g => green
  | .b => blue

/-- The value of a channel. -/
def RGB.value (color : RGB) : Channel → UInt8
  | .r => color.r
  | .g => color.g
  | .b => color.b

/-- `BASE_COLORS.find(c)`, as a channel. -/
def channelOf (c : UInt8) : Option Channel :=
  if c = Letter.R then some .r
  else if c = Letter.G then some .g
  else if c = Letter.B then some .b
  else none

inductive Mark
  | light
  | dark
  deriving DecidableEq

def Mark.letter : Mark → UInt8
  | .light => Letter.L
  | .dark => Letter.D

def markOf (c : UInt8) : Option Mark :=
  if c = Letter.L then some .light else if c = Letter.D then some .dark else none

/-- A base letter with the mark behind it. -/
structure CodeUnit where
  channel : Channel
  mark : Option Mark
  deriving DecidableEq

/-- How a unit is written. -/
def CodeUnit.text (unit : CodeUnit) : Bytes :=
  unit.channel.letter :: (unit.mark.map Mark.letter).toList

/-- The factor of a unit, in halves. -/
def CodeUnit.halves (unit : CodeUnit) : ℕ :=
  match unit.mark with
  | none => 2
  | some .light => 3
  | some .dark => 1

theorem CodeUnit.two_le_halves (unit : CodeUnit) (hbright : unit.mark ≠ some .dark) :
    2 ≤ unit.halves := by
  rw [halves]
  split
  · exact le_rfl
  · decide
  · next hdark => exact absurd hdark hbright

/-- A code from left to right, cut into units and the characters that are skipped. -/
def scanCode : Bytes → List (CodeUnit ⊕ UInt8)
  | [] => []
  | [c] =>
      match channelOf c with
      | none => [.inr c]
      | some channel => [.inl ⟨channel, none⟩]
  | c :: next :: rest =>
      match channelOf c with
      | none => .inr c :: scanCode (next :: rest)
      | some channel =>
          match markOf next with
          | none => .inl ⟨channel, none⟩ :: scanCode (next :: rest)
          | some mark => .inl ⟨channel, some mark⟩ :: scanCode rest

/-- The units of a code. -/
def codeUnits (code : Bytes) : List CodeUnit := (scanCode code).filterMap Sum.getLeft?

/-- The characters of a code that are part of no unit. -/
def skipped (code : Bytes) : Bytes := (scanCode code).filterMap Sum.getRight?

theorem lookup_eq_channelOf (c : UInt8) :
    baseColors.lookup c = (channelOf c).map Channel.base := by
  rw [channelOf]
  by_cases hr : c = Letter.R
  · rw [hr]
    rfl
  by_cases hg : c = Letter.G
  · rw [hg]
    rfl
  by_cases hb : c = Letter.B
  · rw [hb]
    rfl
  · rw [if_neg hr, if_neg hg, if_neg hb, baseColors, List.lookup_cons,
      beq_eq_false_iff_ne.mpr hr, List.lookup_cons, beq_eq_false_iff_ne.mpr hg, List.lookup_cons,
      beq_eq_false_iff_ne.mpr hb]
    rfl

/-! ## How a code is cut -/

section Cut

variable {c next : UInt8} {channel : Channel} {mark : Mark}

theorem channelOf_eq_some_iff : channelOf c = some channel ↔ c = channel.letter := by
  constructor
  · intro hc
    rw [channelOf] at hc
    split at hc
    · cases hc
      assumption
    · split at hc
      · cases hc
        assumption
      · split at hc
        · cases hc
          assumption
        · cases hc
  · rintro rfl
    cases channel <;> decide

theorem markOf_eq_some_iff : markOf c = some mark ↔ c = mark.letter := by
  constructor
  · intro hc
    rw [markOf] at hc
    split at hc
    · cases hc
      assumption
    · split at hc
      · cases hc
        assumption
      · cases hc
  · rintro rfl
    cases mark <;> decide

/-- A mark is no base letter, and a base letter is no mark. -/
theorem channelOf_mark (mark : Mark) : channelOf mark.letter = none := by
  cases mark <;> decide

theorem markOf_channel (channel : Channel) : markOf channel.letter = none := by
  cases channel <;> decide

theorem scanCode_of_none (hc : channelOf c = none) (code : Bytes) :
    scanCode (c :: code) = .inr c :: scanCode code := by
  cases code with
  | nil => simp only [scanCode, hc]
  | cons next rest => rw [scanCode, hc]

/-- A letter with its mark. -/
theorem scanCode_marked (hc : channelOf c = some channel) (hnext : markOf next = some mark)
    (rest : Bytes) : scanCode (c :: next :: rest) = .inl ⟨channel, some mark⟩ :: scanCode rest := by
  rw [scanCode, hc, hnext]

/-- A letter without one. -/
theorem scanCode_plain (hc : channelOf c = some channel) {code : Bytes}
    (hcode : ∀ next ∈ code.head?, markOf next = none) :
    scanCode (c :: code) = .inl ⟨channel, none⟩ :: scanCode code := by
  cases code with
  | nil => simp only [scanCode, hc]
  | cons next rest => rw [scanCode, hc, hcode next rfl]

end Cut

/-- Three ways a code goes on: with a character that is skipped, with a letter and a mark,
or with a letter alone. -/
theorem code_induction {motive : Bytes → Prop} (nil : motive [])
    (skip : ∀ c code, channelOf c = none → motive code → motive (c :: code))
    (marked : ∀ channel mark code, motive code →
      motive (Channel.letter channel :: Mark.letter mark :: code))
    (plain : ∀ channel code, (∀ next ∈ List.head? code, markOf next = none) → motive code →
      motive (Channel.letter channel :: code)) (code : Bytes) : motive code := by
  induction code using scanCode.induct with
  | case1 => exact nil
  | case2 c hc => exact skip c [] hc nil
  | case3 c channel hc =>
      rw [channelOf_eq_some_iff.mp hc]
      exact plain channel [] (fun _ hnext => by cases hnext) nil
  | case4 c next rest hc ih => exact skip c _ hc ih
  | case5 c next rest channel hc hnext ih =>
      rw [channelOf_eq_some_iff.mp hc]
      refine plain channel _ (fun other hother => ?_) ih
      cases hother
      exact hnext
  | case6 c next rest channel hc mark hnext ih =>
      rw [channelOf_eq_some_iff.mp hc, markOf_eq_some_iff.mp hnext]
      exact marked channel mark rest ih

theorem codeUnits_skip {c : UInt8} (hc : channelOf c = none) (code : Bytes) :
    codeUnits (c :: code) = codeUnits code ∧ skipped (c :: code) = c :: skipped code := by
  rw [codeUnits, skipped, scanCode_of_none hc]
  exact ⟨rfl, rfl⟩

theorem codeUnits_marked (channel : Channel) (mark : Mark) (code : Bytes) :
    codeUnits (channel.letter :: mark.letter :: code) = ⟨channel, some mark⟩ :: codeUnits code ∧
      skipped (channel.letter :: mark.letter :: code) = skipped code := by
  rw [codeUnits, skipped,
    scanCode_marked (channelOf_eq_some_iff.mpr rfl) (markOf_eq_some_iff.mpr rfl)]
  exact ⟨rfl, rfl⟩

theorem codeUnits_plain (channel : Channel) {code : Bytes}
    (hcode : ∀ next ∈ code.head?, markOf next = none) :
    codeUnits (channel.letter :: code) = ⟨channel, none⟩ :: codeUnits code ∧
      skipped (channel.letter :: code) = skipped code := by
  rw [codeUnits, skipped, scanCode_plain (channelOf_eq_some_iff.mpr rfl) hcode]
  exact ⟨rfl, rfl⟩

/-- There are not more units than characters. -/
theorem length_codeUnits_le (code : Bytes) : (codeUnits code).length ≤ code.length := by
  induction code using code_induction with
  | nil => exact le_rfl
  | skip c code hc ih =>
      rw [(codeUnits_skip hc code).1, List.length_cons]
      omega
  | marked channel mark code ih =>
      rw [(codeUnits_marked channel mark code).1, List.length_cons, List.length_cons,
        List.length_cons]
      omega
  | plain channel code hcode ih =>
      rw [(codeUnits_plain channel hcode).1, List.length_cons, List.length_cons]
      omega

/-! ## The decoder reads units -/

/-- What a unit adds. -/
def CodeSum.addUnit (sum : CodeSum) (unit : CodeUnit) : Outcome CodeSum :=
  sum.add unit.channel.base unit.halves

theorem lookup_letter (channel : Channel) :
    baseColors.lookup channel.letter = some channel.base := by
  rw [lookup_eq_channelOf, channelOf_eq_some_iff.mpr rfl, Option.map_some]

/-- The decoder's loop is a loop over units. -/
theorem codeSum_eq_foldlM (code : Bytes) (sum : CodeSum) :
    codeSum code sum = (codeUnits code).foldlM CodeSum.addUnit sum := by
  induction code using code_induction generalizing sum with
  | nil => rfl
  | skip c code hc ih =>
      have hlookup : baseColors.lookup c = none := by
        rw [lookup_eq_channelOf, hc, Option.map_none]
      rw [(codeUnits_skip hc code).1, ← ih]
      cases code with
      | nil => simp only [codeSum, hlookup]
      | cons next rest => rw [codeSum, hlookup]
  | marked channel mark code ih =>
      rw [(codeUnits_marked channel mark code).1, List.foldlM_cons, codeSum, lookup_letter]
      simp only [← ih]
      cases mark with
      | light => rfl
      | dark => rfl
  | plain channel code hcode ih =>
      rw [(codeUnits_plain channel hcode).1, List.foldlM_cons]
      simp only [← ih]
      cases code with
      | nil =>
          simp only [codeSum, lookup_letter]
          exact (bind_pure _).symm
      | cons next rest =>
          have hnext := hcode next rfl
          have hlight : next ≠ Letter.L := by
            rintro rfl
            cases hnext
          have hdark : next ≠ Letter.D := by
            rintro rfl
            cases hnext
          rw [codeSum, lookup_letter]
          dsimp only
          rw [if_neg hlight, if_neg hdark]
          rfl

/-! ## The accumulators -/

/-- What dark units alone add up to. -/
def darkLevel : ℕ → ℕ
  | 0 => 0
  | 1 => 127
  | 2 => 254
  | _ => 255

/-- A unit of the channel's letter that is not dark fills the channel; without one, the
number of dark units counts. -/
def channelLevel (channel : Channel) (units : List CodeUnit) : ℕ :=
  if ∃ unit ∈ units, unit.channel = channel ∧ unit.mark ≠ some .dark then 255
  else darkLevel (units.count ⟨channel, some .dark⟩)

theorem darkLevel_le (count : ℕ) : darkLevel count ≤ 255 := by
  rw [darkLevel.eq_def]
  split <;> decide

theorem darkLevel_succ (count : ℕ) :
    darkLevel (count + 1) = min 255 ((2 * darkLevel count + 255) / 2) := by
  match count with
  | 0 => rfl
  | 1 => rfl
  | 2 => rfl
  | count + 3 => simp [darkLevel]

theorem channelLevel_le (channel : Channel) (units : List CodeUnit) :
    channelLevel channel units ≤ 255 := by
  rw [channelLevel]
  split
  · exact le_rfl
  · exact darkLevel_le _

/-- The values of the base colours. -/
theorem toNat_base_value (first second : Channel) :
    (first.base.value second).toNat = if first = second then 255 else 0 := by
  cases first <;> cases second <;> rfl

section Levels

variable {channel : Channel} {units : List CodeUnit} {unit : CodeUnit}

/-- A unit of another letter changes nothing. -/
theorem channelLevel_concat_of_ne (hne : unit.channel ≠ channel) :
    channelLevel channel (units ++ [unit]) = channelLevel channel units := by
  have hcount : (units ++ [unit]).count ⟨channel, some .dark⟩ =
      units.count ⟨channel, some .dark⟩ := by
    have hother : unit ≠ ⟨channel, some .dark⟩ := by
      rintro rfl
      exact hne rfl
    rw [List.count_append, List.count_singleton, if_neg (by simpa using hother), Nat.add_zero]
  simp [channelLevel, hcount, hne, or_and_right, exists_or]

/-- A dark one is counted. -/
theorem channelLevel_concat_dark :
    channelLevel channel (units ++ [⟨channel, some .dark⟩]) =
      min 255 ((2 * channelLevel channel units + 255) / 2) := by
  have hcount : (units ++ [(⟨channel, some .dark⟩ : CodeUnit)]).count ⟨channel, some .dark⟩ =
      units.count ⟨channel, some .dark⟩ + 1 := by
    rw [List.count_append, List.count_singleton_self]
  by_cases hbright : ∃ unit ∈ units, unit.channel = channel ∧ unit.mark ≠ some .dark
  · obtain ⟨unit, hunit, hboth⟩ := hbright
    rw [channelLevel, if_pos ⟨unit, List.mem_append_left _ hunit, hboth⟩, channelLevel,
      if_pos ⟨unit, hunit, hboth⟩]
    rfl
  · have hnone : ¬ ∃ unit ∈ units ++ [⟨channel, some .dark⟩],
        unit.channel = channel ∧ unit.mark ≠ some .dark := by
      rintro ⟨unit, hunit, hboth⟩
      rcases List.mem_append.mp hunit with hbefore | hlast
      · exact hbright ⟨unit, hbefore, hboth⟩
      · rw [List.mem_singleton] at hlast
        subst hlast
        exact hboth.2 rfl
    rw [channelLevel, if_neg hnone, hcount, darkLevel_succ, channelLevel, if_neg hbright]

/-- Any other fills the channel. -/
theorem channelLevel_concat_bright (hchannel : unit.channel = channel)
    (hbright : unit.mark ≠ some .dark) : channelLevel channel (units ++ [unit]) = 255 :=
  if_pos ⟨unit, List.mem_append_right _ List.mem_cons_self, hchannel, hbright⟩

/-- One more unit, in the arithmetic of the decoder without its types. -/
theorem channelLevel_concat :
    channelLevel channel (units ++ [unit]) =
      min 255 ((2 * channelLevel channel units +
        (unit.channel.base.value channel).toNat * unit.halves) / 2) := by
  have hle := channelLevel_le channel units
  rw [toNat_base_value]
  by_cases hchannel : unit.channel = channel
  · rw [if_pos hchannel]
    by_cases hdark : unit.mark = some .dark
    · have hunit : unit = ⟨channel, some .dark⟩ := by rw [← hchannel, ← hdark]
      rw [hunit, channelLevel_concat_dark, CodeUnit.halves, Nat.mul_one]
    · have hhalves := Nat.mul_le_mul_left 255 (unit.two_le_halves hdark)
      rw [channelLevel_concat_bright hchannel hdark]
      omega
  · rw [if_neg hchannel, channelLevel_concat_of_ne hchannel]
    omega

end Levels

/-- Nothing is lost when a sum is stored in eight bits. -/
theorem toNat_addChannel (channel base : UInt8) (halves : ℕ) :
    (addChannel channel base halves).toNat =
      min 255 ((2 * channel.toNat + base.toNat * halves) / 2) := by
  rw [addChannel, UInt8.toNat_ofNat']
  omega

/-- After some units the accumulators are the levels of the channels. -/
theorem foldlM_addUnit {units : List CodeUnit} (hunits : units.length < 2 ^ 31) :
    ∃ sum, units.foldlM CodeSum.addUnit ⟨⟨0, 0, 0⟩, 0⟩ = .ok sum ∧ sum.count = units.length ∧
      ∀ channel, (sum.result.value channel).toNat = channelLevel channel units := by
  induction units using List.reverseRecOn with
  | nil =>
      refine ⟨_, rfl, rfl, fun channel => ?_⟩
      cases channel <;> rfl
  | append_singleton units unit ih =>
      rw [List.length_append, List.length_singleton] at hunits
      obtain ⟨sum, hsum, hcount, hlevels⟩ := ih (by omega)
      have hadd : sum.addUnit unit = .ok ⟨⟨addChannel sum.result.r unit.channel.base.r unit.halves,
          addChannel sum.result.g unit.channel.base.g unit.halves,
          addChannel sum.result.b unit.channel.base.b unit.halves⟩, sum.count + 1⟩ := by
        rw [CodeSum.addUnit, CodeSum.add, intResult, if_pos (by omega)]
        rfl
      refine ⟨_, foldlM_concat_eq_ok_iff.mpr ⟨sum, hsum, hadd⟩, ?_, fun channel => ?_⟩
      · rw [List.length_append, List.length_singleton, hcount]
        rfl
      · rw [channelLevel_concat, ← hlevels channel]
        cases channel <;> exact toNat_addChannel _ _ _

/-! ## The closed form -/

theorem toNat_divideChannel (channel : UInt8) (count : ℕ) :
    (divideChannel channel count).toNat = channel.toNat / count := by
  have hle : channel.toNat / count ≤ channel.toNat := Nat.div_le_self _ _
  have hlt := channel.toNat_lt
  rw [divideChannel, ← Int.natCast_div, Int.toNat_natCast, UInt8.toNat_ofNat']
  exact Nat.mod_eq_of_lt (lt_of_le_of_lt hle hlt)

/-- A code without units is black, and any other has the average of its units. -/
theorem codeToRGB_eq {code : Bytes} (hunits : (codeUnits code).length < 2 ^ 31) :
    ∃ color, codeToRGB code = .ok color ∧
      (codeUnits code = [] → color = ⟨0, 0, 0⟩) ∧
      (codeUnits code ≠ [] → ∀ channel, (color.value channel).toNat =
        channelLevel channel (codeUnits code) / (codeUnits code).length) := by
  obtain ⟨sum, hsum, hcount, hlevels⟩ := foldlM_addUnit hunits
  rw [codeToRGB, codeSum_eq_foldlM, hsum, ok_bind, hcount]
  by_cases hnone : codeUnits code = []
  · rw [if_pos (by rw [hnone]; rfl)]
    exact ⟨_, rfl, fun _ => rfl, fun hsome => absurd hnone hsome⟩
  · have hpos : 0 < (codeUnits code).length := List.length_pos_iff.mpr hnone
    rw [if_neg (by omega)]
    refine ⟨_, rfl, fun hempty => absurd hempty hnone, fun _ channel => ?_⟩
    rw [← hlevels channel]
    cases channel <;> exact toNat_divideChannel _ _

/-- Two colours with the same channels. -/
theorem RGB.ext_value {first second : RGB}
    (hvalues : ∀ channel, (first.value channel).toNat = (second.value channel).toNat) :
    first = second := by
  obtain ⟨r, g, b⟩ := first
  have hr := UInt8.toNat_inj.mp (hvalues .r)
  have hg := UInt8.toNat_inj.mp (hvalues .g)
  have hb := UInt8.toNat_inj.mp (hvalues .b)
  dsimp only [RGB.value] at hr hg hb
  rw [hr, hg, hb]

theorem channelLevel_perm (channel : Channel) {first second : List CodeUnit}
    (hperm : first.Perm second) : channelLevel channel first = channelLevel channel second := by
  simp only [channelLevel, hperm.mem_iff, hperm.count_eq]

/-- The order of the units does not matter. -/
theorem codeToRGB_perm {first second : Bytes} (hunits : (codeUnits second).length < 2 ^ 31)
    (hperm : (codeUnits first).Perm (codeUnits second)) : codeToRGB first = codeToRGB second := by
  have hlength := hperm.length_eq
  obtain ⟨color, hcolor, hblack, hvalues⟩ := codeToRGB_eq (hlength ▸ hunits)
  obtain ⟨other, hother, hotherBlack, hotherValues⟩ := codeToRGB_eq hunits
  have hsame : color = other := by
    by_cases hnone : codeUnits second = []
    · rw [hotherBlack hnone, hblack (List.Perm.eq_nil (hnone ▸ hperm))]
    · have hsome : codeUnits first ≠ [] := fun hempty =>
        hnone (List.Perm.eq_nil (hempty ▸ hperm.symm))
      apply RGB.ext_value
      intro channel
      rw [hvalues hsome, hotherValues hnone, channelLevel_perm channel hperm, hlength]
  rw [hcolor, hother, hsame]

/-- The decoder in closed form: its loop goes from unit to unit, its accumulators are the
levels of the channels after each of them, its result is their average, and the units may
be put in any order. -/
theorem codeToRGB_closed {code : Bytes} (hlength : code.length < 2 ^ 31) :
    (∀ sum, codeSum code sum = (codeUnits code).foldlM CodeSum.addUnit sum) ∧
    (∀ units, units <+: codeUnits code →
      ∃ sum, units.foldlM CodeSum.addUnit ⟨⟨0, 0, 0⟩, 0⟩ = .ok sum ∧
        ∀ channel, (sum.result.value channel).toNat = channelLevel channel units) ∧
    (∃ color, codeToRGB code = .ok color ∧
      (codeUnits code = [] → color = ⟨0, 0, 0⟩) ∧
      (codeUnits code ≠ [] → ∀ channel, (color.value channel).toNat =
        channelLevel channel (codeUnits code) / (codeUnits code).length)) ∧
    ∀ other, (codeUnits other).Perm (codeUnits code) → codeToRGB other = codeToRGB code := by
  have hunits : (codeUnits code).length < 2 ^ 31 :=
    lt_of_le_of_lt (length_codeUnits_le code) hlength
  refine ⟨codeSum_eq_foldlM code, fun units hprefix => ?_, codeToRGB_eq hunits,
    fun other hperm => codeToRGB_perm hunits hperm⟩
  obtain ⟨sum, hsum, -, hlevels⟩ := foldlM_addUnit (lt_of_le_of_lt hprefix.length_le hunits)
  exact ⟨sum, hsum, hlevels⟩

/-- Two dark units and a third that is not. -/
theorem codeToRGB_closed_three :
    codeToRGB (ascii "RDxBGD") = codeToRGB (ascii "GDRDB") :=
  (codeToRGB_closed (by decide)).2.2.2 (ascii "RDxBGD") (by decide)

/-! ## The validator -/

/-- `isValidCode`. -/
def isValidCode (code : Bytes) : Bool :=
  if code = [] then false
  else code.all fun c => !((baseColors.lookup c).isNone && c != Letter.L && c != Letter.D)

/-- The decoder takes every character as part of a unit, and there is one. -/
def ConsumesAll (code : Bytes) : Prop := skipped code = [] ∧ codeUnits code ≠ []

/-- A mark stands only directly behind a base letter. -/
def MarksFollowLetters (code : Bytes) : Prop :=
  (∀ c ∈ code.head?, markOf c = none) ∧
    code.IsChain fun c next => (markOf next).isSome → (channelOf c).isSome

theorem isValidCode_iff (code : Bytes) :
    isValidCode code = true ↔
      code ≠ [] ∧ ∀ c ∈ code, (channelOf c).isSome ∨ (markOf c).isSome := by
  rw [isValidCode]
  by_cases hempty : code = []
  · simp [hempty]
  · have hchar (c : UInt8) :
        (!((baseColors.lookup c).isNone && c != Letter.L && c != Letter.D)) = true ↔
          (channelOf c).isSome ∨ (markOf c).isSome := by
      rw [lookup_eq_channelOf, markOf]
      cases channelOf c with
      | some channel => simp
      | none =>
          by_cases hlight : c = Letter.L
          · simp [hlight]
          · rw [if_neg hlight]
            by_cases hdark : c = Letter.D
            · simp [hdark]
            · simp [hlight, hdark]
    rw [if_neg hempty, List.all_eq_true, and_iff_right hempty]
    exact forall₂_congr fun c _ => hchar c

/-- A code read without skipping is the units it was read as. -/
theorem flatMap_text_codeUnits {code : Bytes} (hskipped : skipped code = []) :
    (codeUnits code).flatMap CodeUnit.text = code := by
  induction code using code_induction with
  | nil => rfl
  | skip c code hc ih =>
      rw [(codeUnits_skip hc code).2] at hskipped
      cases hskipped
  | marked channel mark code ih =>
      rw [(codeUnits_marked channel mark code).2] at hskipped
      rw [(codeUnits_marked channel mark code).1, List.flatMap_cons, ih hskipped]
      rfl
  | plain channel code hcode ih =>
      rw [(codeUnits_plain channel hcode).2] at hskipped
      rw [(codeUnits_plain channel hcode).1, List.flatMap_cons, ih hskipped]
      rfl

/-- A text of units does not begin with a mark. -/
theorem markOf_head_units (units : List CodeUnit) :
    ∀ c ∈ (units.flatMap CodeUnit.text).head?, markOf c = none := by
  cases units with
  | nil => exact fun _ hc => by cases hc
  | cons unit units =>
      intro c hc
      cases hc
      exact markOf_channel unit.channel

/-- Units are read as they were written. -/
theorem codeUnits_flatMap_text (units : List CodeUnit) :
    codeUnits (units.flatMap CodeUnit.text) = units ∧
      skipped (units.flatMap CodeUnit.text) = [] := by
  induction units with
  | nil => exact ⟨rfl, rfl⟩
  | cons unit units ih =>
      obtain ⟨channel, mark⟩ := unit
      rw [List.flatMap_cons]
      cases mark with
      | none =>
          have hplain := codeUnits_plain channel (markOf_head_units units)
          rw [ih.1, ih.2] at hplain
          exact hplain
      | some mark =>
          have hmarked := codeUnits_marked channel mark (units.flatMap CodeUnit.text)
          rw [ih.1, ih.2] at hmarked
          exact hmarked

/-- The decoder consumes exactly the concatenations of units. -/
theorem consumesAll_iff (code : Bytes) :
    ConsumesAll code ↔ ∃ units, units ≠ [] ∧ code = units.flatMap CodeUnit.text := by
  constructor
  · rintro ⟨hskipped, hunits⟩
    exact ⟨codeUnits code, hunits, (flatMap_text_codeUnits hskipped).symm⟩
  · rintro ⟨units, hunits, rfl⟩
    obtain ⟨hread, hskipped⟩ := codeUnits_flatMap_text units
    refine ⟨hskipped, ?_⟩
    rw [hread]
    exact hunits

/-- Among the five letters only marks can be skipped, and they are unless they follow a
base letter. -/
theorem skipped_eq_nil_iff {code : Bytes}
    (hletters : ∀ c ∈ code, (channelOf c).isSome ∨ (markOf c).isSome) :
    skipped code = [] ↔ MarksFollowLetters code := by
  induction code using code_induction with
  | nil => exact iff_of_true rfl ⟨fun _ hc => (by cases hc), List.isChain_nil⟩
  | skip c code hc ih =>
      rw [(codeUnits_skip hc code).2]
      refine iff_of_false (List.cons_ne_nil _ _) fun hmarks => ?_
      have hnone := hmarks.1 c rfl
      have hsome := hletters c List.mem_cons_self
      simp [hc, hnone] at hsome
  | marked channel mark code ih =>
      have hrest : ∀ c ∈ code, (channelOf c).isSome ∨ (markOf c).isSome := fun c hc =>
        hletters c (List.mem_cons_of_mem _ (List.mem_cons_of_mem _ hc))
      rw [(codeUnits_marked channel mark code).2, ih hrest, MarksFollowLetters,
        MarksFollowLetters, List.isChain_cons_cons, List.isChain_cons]
      simp [channelOf_mark, markOf_channel, channelOf_eq_some_iff.mpr rfl]
  | plain channel code hcode ih =>
      have hrest : ∀ c ∈ code, (channelOf c).isSome ∨ (markOf c).isSome := fun c hc =>
        hletters c (List.mem_cons_of_mem _ hc)
      rw [(codeUnits_plain channel hcode).2, ih hrest, MarksFollowLetters, MarksFollowLetters,
        and_iff_right hcode, List.isChain_cons]
      simp [markOf_channel, channelOf_eq_some_iff.mpr rfl]

/-- The validator agrees with the decoder exactly on codes with a character that is none of
the five letters, and on those whose marks all stand behind a base letter. -/
theorem isValidCode_agrees_iff (code : Bytes) :
    (ConsumesAll code ↔ ∃ units, units ≠ [] ∧ code = units.flatMap CodeUnit.text) ∧
    ((isValidCode code = true ↔ ConsumesAll code) ↔
      (∃ c ∈ code, channelOf c = none ∧ markOf c = none) ∨ MarksFollowLetters code) := by
  refine ⟨consumesAll_iff code, ?_⟩
  rw [isValidCode_iff, ConsumesAll]
  by_cases hletters : ∀ c ∈ code, (channelOf c).isSome ∨ (markOf c).isSome
  · have hno : ¬ ∃ c ∈ code, channelOf c = none ∧ markOf c = none := by
      rintro ⟨c, hc, hchannel, hmark⟩
      have hsome := hletters c hc
      simp [hchannel, hmark] at hsome
    rw [or_iff_right hno, ← skipped_eq_nil_iff hletters]
    by_cases hskipped : skipped code = []
    · have hsame : code ≠ [] ↔ codeUnits code ≠ [] := by
        refine not_congr ⟨fun hempty => by rw [hempty]; rfl, fun hnone => ?_⟩
        rw [← flatMap_text_codeUnits hskipped, hnone]
        rfl
      refine iff_of_true ?_ hskipped
      rw [and_iff_left hletters, and_iff_right hskipped, hsame]
    · refine iff_of_false (fun hagree => hskipped ?_) hskipped
      have hne : code ≠ [] := by
        rintro rfl
        exact hskipped rfl
      exact (hagree.mp ⟨hne, hletters⟩).1
  · push Not at hletters
    obtain ⟨c, hc, hchannel, hmark⟩ := hletters
    have hother : channelOf c = none ∧ markOf c = none := by
      simpa using And.intro hchannel hmark
    refine iff_of_true (iff_of_false (fun hvalid => ?_) fun hconsumes => ?_) (.inl ⟨c, hc, hother⟩)
    · have hsome := hvalid.2 c hc
      simp [hother] at hsome
    · -- a unit holds nothing but letters and marks
      obtain ⟨units, -, rfl⟩ := (consumesAll_iff code).mp hconsumes
      obtain ⟨unit, -, hmem⟩ := List.mem_flatMap.mp hc
      rcases List.mem_cons.mp hmem with rfl | hmarked
      · rw [channelOf_eq_some_iff.mpr rfl] at hother
        cases hother.1
      · obtain ⟨mark, hmark⟩ := Option.mem_toList.mp hmarked |> Option.map_eq_some_iff.mp
        rw [← hmark.2, markOf_eq_some_iff.mpr rfl] at hother
        cases hother.2

/-- A mark alone is valid, and is skipped. -/
theorem not_isValidCode_agrees_mark :
    isValidCode (ascii "L") = true ∧ codeUnits (ascii "L") = [] ∧
      ¬ ∀ code, isValidCode code = true ↔
        ∃ units, units ≠ [] ∧ code = units.flatMap CodeUnit.text := by
  refine ⟨by decide, by decide, fun hall => ?_⟩
  have hunits := (hall (ascii "L")).mp (by decide)
  rw [← consumesAll_iff] at hunits
  exact hunits.2 (by decide)

end Dht
