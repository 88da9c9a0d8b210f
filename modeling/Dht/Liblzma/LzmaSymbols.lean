/-
# The symbols of LZMA

LZMA codes a text as literals, matches at a new distance and matches at one of the last
four. Which probabilities code a symbol depends on the kinds of the last symbols, on the
position and, for a literal, on bytes of the text before it. `lzma_encoder.c` queues the
bits of one symbol in `encode_symbol`; `lzma_decoder.c` asks for them one by one in the
body of its loop. The decoder side is a `Dialogue` here that ends in a `LzmaEvent`: what
is written to the dictionary next and the state after it.

The result is that for every symbol the encoder may be asked to encode, in every state,
the bits it queues answer the decoder's questions, and the decoder ends with the symbol
and in the encoder's next state.
-/

import Dht.Liblzma.BitTree
import Dht.Liblzma.DistSlot

namespace Dht

/-! ## State -/

/-- `lzma_lzma_state`. -/
inductive LzmaState
  | litLit | matchLitLit | repLitLit | shortrepLitLit | matchLit | repLit | shortrepLit
  | litMatch | litLongrep | litShortrep | nonlitMatch | nonlitRep
  deriving DecidableEq

namespace LzmaState

/-- The number of a state. -/
def toIndex : LzmaState → ℕ
  | litLit => 0
  | matchLitLit => 1
  | repLitLit => 2
  | shortrepLitLit => 3
  | matchLit => 4
  | repLit => 5
  | shortrepLit => 6
  | litMatch => 7
  | litLongrep => 8
  | litShortrep => 9
  | nonlitMatch => 10
  | nonlitRep => 11

/-- The state with a number. -/
def ofIndex : ℕ → LzmaState
  | 0 => litLit
  | 1 => matchLitLit
  | 2 => repLitLit
  | 3 => shortrepLitLit
  | 4 => matchLit
  | 5 => repLit
  | 6 => shortrepLit
  | 7 => litMatch
  | 8 => litLongrep
  | 9 => litShortrep
  | 10 => nonlitMatch
  | _ => nonlitRep

/-- `is_literal_state`, with `LIT_STATES` seven. -/
def isLiteral (state : LzmaState) : Bool := state.toIndex < 7

/-- `update_literal`. -/
def updateLiteral (state : LzmaState) : LzmaState :=
  if state.toIndex ≤ shortrepLitLit.toIndex then litLit
  else if state.toIndex ≤ litShortrep.toIndex then ofIndex (state.toIndex - 3)
  else ofIndex (state.toIndex - 6)

/-- `update_match`. -/
def updateMatch (state : LzmaState) : LzmaState :=
  if state.isLiteral then litMatch else nonlitMatch

/-- `update_long_rep`. -/
def updateLongRep (state : LzmaState) : LzmaState :=
  if state.isLiteral then litLongrep else nonlitRep

/-- `update_short_rep`. -/
def updateShortRep (state : LzmaState) : LzmaState :=
  if state.isLiteral then litShortrep else nonlitRep

/-- The table `next_state` of the decoder. -/
def nextState : LzmaState → LzmaState
  | litLit => litLit
  | matchLitLit => litLit
  | repLitLit => litLit
  | shortrepLitLit => litLit
  | matchLit => matchLitLit
  | repLit => repLitLit
  | shortrepLit => shortrepLitLit
  | litMatch => matchLit
  | litLongrep => repLit
  | litShortrep => shortrepLit
  | nonlitMatch => matchLit
  | nonlitRep => repLit

/-- The decoder's table is the encoder's arithmetic. -/
theorem nextState_eq (state : LzmaState) : state.nextState = state.updateLiteral := by
  cases state <;> rfl

end LzmaState

/-- The probabilities of a length coder. -/
inductive LenProb
  | choice
  | choice2
  | low (posState symbol : ℕ)
  | mid (posState symbol : ℕ)
  | high (symbol : ℕ)
  deriving DecidableEq

/-- The probabilities both coders keep, by the arrays they are in. -/
inductive LzmaProb
  | literal (subcoder index : ℕ)
  | isMatch (state : LzmaState) (posState : ℕ)
  | isRep (state : LzmaState)
  | isRep0 (state : LzmaState)
  | isRep1 (state : LzmaState)
  | isRep2 (state : LzmaState)
  | isRep0Long (state : LzmaState) (posState : ℕ)
  | distSlot (distState symbol : ℕ)
  | distSpecial (index : ℕ)
  | distAlign (index : ℕ)
  | matchLen (prob : LenProb)
  | repLen (prob : LenProb)
  deriving DecidableEq

/-- A bit with its probability, or without one. -/
abbrev LzmaBit := RcContext LzmaProb × Bool

/-- `lc`, `lp` and `pb`, as far as `is_lclppb_valid` accepts them. -/
structure LzmaProps where
  lc : ℕ
  lp : ℕ
  pb : ℕ
  lclp_le : lc + lp ≤ 4
  pb_le : pb ≤ 4
  deriving DecidableEq

/-- `position & pos_mask`. -/
def LzmaProps.posState (props : LzmaProps) (position : ℕ) : ℕ :=
  position &&& ((1 <<< props.pb) - 1)

/-- `literal_subcoder`: the index of the coder for the next literal. -/
def LzmaProps.literalSubcoder (props : LzmaProps) (position : ℕ) (prevByte : UInt8) : ℕ :=
  ((position &&& ((1 <<< props.lp) - 1)) <<< props.lc) + (prevByte.toNat >>> (8 - props.lc))

/-- The part of either coder that one symbol changes. -/
structure LzmaModel where
  state : LzmaState
  rep0 : ℕ
  rep1 : ℕ
  rep2 : ℕ
  rep3 : ℕ
  deriving DecidableEq

/-- The state both coders are reset to. -/
def LzmaModel.reset : LzmaModel := ⟨.litLit, 0, 0, 0, 0⟩

/-- What a literal is coded with: the position, the byte before it, and the byte the last
match would have gone on with. -/
structure LiteralContext where
  position : ℕ
  prevByte : UInt8
  matchByte : UInt8

/-- Complement of 32 bits. -/
def not32 (number : ℕ) : ℕ := 0xFFFFFFFF ^^^ number

/-! ## Encoding -/

/-- The loop of `literal_matched`, which runs eight times. -/
def literalMatchedLoop (tree : ℕ → LzmaProb) : ℕ → ℕ → ℕ → ℕ → List LzmaBit
  | 0, _, _, _ => []
  | count + 1, matchByte, symbol, offset =>
      let matchByte := matchByte <<< 1
      let matchBit := matchByte &&& offset
      let subcoderIndex := offset + matchBit + symbol >>> 8
      let bit := (symbol >>> 7) &&& 1
      let symbol := symbol <<< 1
      (.prob (tree subcoderIndex), bit = 1) ::
        literalMatchedLoop tree count matchByte symbol (offset &&& not32 (matchByte ^^^ symbol))

/-- `literal_matched`. -/
def literalMatched (tree : ℕ → LzmaProb) (matchByte symbol : ℕ) : List LzmaBit :=
  literalMatchedLoop tree 8 matchByte (symbol + 1 <<< 8) 0x100

/-- `literal`. -/
def encodeLiteral (props : LzmaProps) (model : LzmaModel) (context : LiteralContext)
    (curByte : UInt8) : List LzmaBit × LzmaModel :=
  let subcoder := LzmaProb.literal (props.literalSubcoder context.position context.prevByte)
  let bits :=
    if model.state.isLiteral then rcBittree subcoder 8 curByte.toNat
    else literalMatched subcoder context.matchByte.toNat curByte.toNat
  (bits, { model with state := model.state.updateLiteral })

/-- `length`, without the prices the optimiser keeps. -/
def encodeLength (coder : LenProb → LzmaProb) (posState len : ℕ) : List LzmaBit :=
  let len := len - 2
  if len < 8 then
    (.prob (coder .choice), false) :: rcBittree (fun i => coder (.low posState i)) 3 len
  else
    let len := len - 8
    (.prob (coder .choice), true) ::
      if len < 8 then
        (.prob (coder .choice2), false) :: rcBittree (fun i => coder (.mid posState i)) 3 len
      else
        (.prob (coder .choice2), true) :: rcBittree (fun i => coder (.high i)) 8 (len - 8)

/-- `get_dist_state`. -/
def getDistState (len : ℕ) : ℕ := if len < 4 + 2 then len - 2 else 4 - 1

/-- The part of a distance below its slot. -/
def encodeFooter (slot distance : ℕ) : List LzmaBit :=
  let footerBits := slot >>> 1 - 1
  let distReduced := distance - distBase slot
  if 4 ≤ slot then
    if slot < 14 then
      -- the array begins one before its first element; the index is never zero
      rcBittreeReverse (fun i => .distSpecial (distBase slot + i - slot - 1)) footerBits
        distReduced
    else
      rcDirect (distReduced >>> 4) (footerBits - 4) ++
        rcBittreeReverse .distAlign 4 (distReduced &&& 15)
  else []

/-- The distance part of `match`. -/
def encodeDistance (distance len : ℕ) : List LzmaBit :=
  let slot := getDistSlot distance
  rcBittree (.distSlot (getDistState len)) 6 slot ++ encodeFooter slot distance

/-- `match`. -/
def encodeMatch (model : LzmaModel) (posState distance len : ℕ) : List LzmaBit × LzmaModel :=
  (encodeLength .matchLen posState len ++ encodeDistance distance len,
    ⟨model.state.updateMatch, distance, model.rep0, model.rep1, model.rep2⟩)

/-- The distances after `rep_match`. -/
def LzmaModel.useRep (model : LzmaModel) : ℕ → LzmaModel
  | 0 => model
  | 1 => { model with rep0 := model.rep1, rep1 := model.rep0 }
  | 2 => { model with rep0 := model.rep2, rep1 := model.rep0, rep2 := model.rep1 }
  | _ => ⟨model.state, model.rep3, model.rep0, model.rep1, model.rep2⟩

/-- `rep_match`. -/
def encodeRepMatch (model : LzmaModel) (posState rep len : ℕ) : List LzmaBit × LzmaModel :=
  let choice : List LzmaBit :=
    if rep = 0 then
      [(.prob (.isRep0 model.state), false),
        (.prob (.isRep0Long model.state posState), len ≠ 1)]
    else
      (.prob (.isRep0 model.state), true) ::
        if rep = 1 then [(.prob (.isRep1 model.state), false)]
        else
          [(.prob (.isRep1 model.state), true), (.prob (.isRep2 model.state), rep - 2 = 1)]
  if len = 1 then
    (choice, { model.useRep rep with state := model.state.updateShortRep })
  else
    (choice ++ encodeLength .repLen posState len,
      { model.useRep rep with state := model.state.updateLongRep })

/-- `encode_symbol`. `back` is `UINT32_MAX` for a literal, a number below `REPS` for a
repeated distance, and four more than the distance otherwise. -/
def encodeSymbol (props : LzmaProps) (model : LzmaModel) (context : LiteralContext)
    (curByte : UInt8) (back len : ℕ) : List LzmaBit × LzmaModel :=
  let posState := props.posState context.position
  if back = 2 ^ 32 - 1 then
    let coded := encodeLiteral props model context curByte
    ((.prob (.isMatch model.state posState), false) :: coded.1, coded.2)
  else if back < 4 then
    let coded := encodeRepMatch model posState back len
    ((.prob (.isMatch model.state posState), true) ::
      (.prob (.isRep model.state), true) :: coded.1, coded.2)
  else
    let coded := encodeMatch model posState (back - 4) len
    ((.prob (.isMatch model.state posState), true) ::
      (.prob (.isRep model.state), false) :: coded.1, coded.2)

/-- `encode_eopm`. -/
def encodeEopm (props : LzmaProps) (model : LzmaModel) (position : ℕ) : List LzmaBit :=
  let posState := props.posState position
  (.prob (.isMatch model.state posState), true) :: (.prob (.isRep model.state), false) ::
    (encodeMatch model posState (2 ^ 32 - 1) 2).1

/-! ## Decoding -/

/-- What the decoder does after a symbol. -/
inductive LzmaEvent
  /-- `SEQ_LITERAL_WRITE` -/
  | literal (byte : UInt8)
  /-- `SEQ_SHORTREP` -/
  | shortRep
  /-- The check of a new distance, and then `SEQ_COPY`. -/
  | checkedCopy (len : ℕ)
  /-- `SEQ_COPY` -/
  | copy (len : ℕ)
  /-- The end of payload marker. -/
  | endMarker
  /-- A repeated match although nothing has been written. -/
  | invalid
  deriving DecidableEq

/-- The loop of `SEQ_LITERAL_MATCHED`, with the match byte in `len`. -/
def readLiteralMatched (tree : ℕ → LzmaProb) :
    ℕ → ℕ → ℕ → ℕ → Dialogue (RcContext LzmaProb) ℕ
  | 0, symbol, _, _ => .done symbol
  | count + 1, symbol, offset, len =>
      let matchBit := len &&& offset
      .ask (.prob (tree (offset + matchBit + symbol))) fun bit =>
        readLiteralMatched tree count ((symbol <<< 1) + bit.toNat)
          (if bit then offset &&& matchBit else offset &&& not32 matchBit) (len <<< 1)

/-- A literal. -/
def readLiteral (props : LzmaProps) (model : LzmaModel) (context : LiteralContext) :
    Dialogue (RcContext LzmaProb) (LzmaEvent × LzmaModel) :=
  let subcoder := LzmaProb.literal (props.literalSubcoder context.position context.prevByte)
  let symbol :=
    if model.state.isLiteral then readBittree subcoder 8 1
    else readLiteralMatched subcoder 8 1 0x100 (context.matchByte.toNat <<< 1)
  symbol.bind fun symbol =>
    .done (.literal (UInt8.ofNat symbol), { model with state := model.state.nextState })

/-- `len_decode`. -/
def readLength (coder : LenProb → LzmaProb) (posState : ℕ) :
    Dialogue (RcContext LzmaProb) ℕ :=
  .ask (.prob (coder .choice)) fun
    | false => (readBittree (fun i => coder (.low posState i)) 3 1).bind fun symbol =>
        .done (symbol - 8 + 2)
    | true => .ask (.prob (coder .choice2)) fun
        | false => (readBittree (fun i => coder (.mid posState i)) 3 1).bind fun symbol =>
            .done (symbol - 8 + 2 + 8)
        | true => (readBittree (fun i => coder (.high i)) 8 1).bind fun symbol =>
            .done (symbol - 256 + 2 + 8 + 8)

/-- The distance of a match after its slot. -/
def readFooter (slot : ℕ) : Dialogue (RcContext LzmaProb) ℕ :=
  if slot < 4 then .done slot
  else
    let limit := slot >>> 1 - 1
    let rep0 := 2 + (slot &&& 1)
    if slot < 14 then
      readBittreeReverse (fun i => .distSpecial (rep0 <<< limit + i - slot - 1)) limit 1 0
        (rep0 <<< limit)
    else
      (readDirect (limit - 4) rep0).bind fun rep0 =>
        readBittreeReverse .distAlign 4 1 0 (rep0 <<< 4)

/-- The distance of a match. -/
def readDistance (len : ℕ) : Dialogue (RcContext LzmaProb) ℕ :=
  (readBittree (.distSlot (getDistState len)) 6 1).bind fun symbol => readFooter (symbol - 64)

/-- A match at a new distance. -/
def readMatch (model : LzmaModel) (posState : ℕ) :
    Dialogue (RcContext LzmaProb) (LzmaEvent × LzmaModel) :=
  (readLength .matchLen posState).bind fun len =>
    (readDistance len).bind fun rep0 =>
      .done (if rep0 = 2 ^ 32 - 1 then .endMarker else .checkedCopy len,
        ⟨model.state.updateMatch, rep0, model.rep0, model.rep1, model.rep2⟩)

/-- The length of a match at a repeated distance. -/
def readRepLength (model : LzmaModel) (posState rep : ℕ) :
    Dialogue (RcContext LzmaProb) (LzmaEvent × LzmaModel) :=
  (readLength .repLen posState).bind fun len =>
    .done (.copy len, { model.useRep rep with state := model.state.updateLongRep })

/-- A match at a repeated distance. -/
def readRepMatch (model : LzmaModel) (posState : ℕ) :
    Dialogue (RcContext LzmaProb) (LzmaEvent × LzmaModel) :=
  .ask (.prob (.isRep0 model.state)) fun
    | false => .ask (.prob (.isRep0Long model.state posState)) fun
        | false => .done (.shortRep, { model with state := model.state.updateShortRep })
        | true => readRepLength model posState 0
    | true => .ask (.prob (.isRep1 model.state)) fun
        | false => readRepLength model posState 1
        | true => .ask (.prob (.isRep2 model.state)) fun
            | false => readRepLength model posState 2
            | true => readRepLength model posState 3

/-- One turn of the loop of `lzma_decode` up to where it writes. `empty` says that nothing
has been written yet. -/
def readSymbol (props : LzmaProps) (model : LzmaModel) (context : LiteralContext)
    (empty : Bool) : Dialogue (RcContext LzmaProb) (LzmaEvent × LzmaModel) :=
  let posState := props.posState context.position
  .ask (.prob (.isMatch model.state posState)) fun
    | false => readLiteral props model context
    | true => .ask (.prob (.isRep model.state)) fun
        | false => readMatch model posState
        | true => if empty then .done (.invalid, model) else readRepMatch model posState

/-! ## What is encoded is decoded -/

section Follows

variable (rest : List LzmaBit)

/-- Whether the match byte is still compared: while all bits so far agreed. -/
theorem matchedOffset_eq {offset : ℕ} (hoffset : offset = 0 ∨ offset = 0x100)
    (matchByte symbol : ℕ) :
    offset &&& not32 (matchByte ^^^ symbol <<< 1) =
      if (symbol >>> 7) &&& 1 = 1 then offset &&& (matchByte &&& offset)
      else offset &&& not32 (matchByte &&& offset) := by
  obtain rfl | rfl := hoffset
  · simp
  · have hpower : (0x100 : ℕ) = 2 ^ 8 := rfl
    have hbit : symbol.testBit 7 = decide ((symbol >>> 7) &&& 1 = 1) := by
      rw [Nat.testBit, Nat.and_comm, Nat.and_one_is_mod]
      rcases Nat.mod_two_eq_zero_or_one (symbol >>> 7) with hzero | hone
      · rw [hzero]
        rfl
      · rw [hone]
        rfl
    have hshift : (symbol <<< 1).testBit 8 = symbol.testBit 7 := by
      rw [Nat.testBit_shiftLeft]
      rfl
    have hones : (0xFFFFFFFF : ℕ).testBit 8 = true := by decide
    rw [hpower, Nat.and_comm _ (not32 _), Nat.and_two_pow, not32, Nat.testBit_xor, Nat.testBit_xor,
      hones, hshift, hbit, Nat.and_comm _ (not32 _), not32, Nat.and_two_pow matchByte 8]
    by_cases hset : (symbol >>> 7) &&& 1 = 1
    · rw [if_pos hset, decide_eq_true hset]
      cases matchByte.testBit 8 <;> rfl
    · rw [if_neg hset, decide_eq_false hset]
      cases matchByte.testBit 8 <;> rfl

theorem matchedOffset_cases {offset : ℕ} (hoffset : offset = 0 ∨ offset = 0x100) (mask : ℕ) :
    offset &&& mask = 0 ∨ offset &&& mask = 0x100 := by
  obtain rfl | rfl := hoffset
  · exact .inl (Nat.zero_and mask)
  · have hand : 0x100 &&& mask = (mask.testBit 8).toNat * 2 ^ 8 := by
      rw [Nat.and_comm]
      exact Nat.and_two_pow mask 8
    rw [hand]
    cases mask.testBit 8
    · exact .inl rfl
    · exact .inr rfl

theorem readLiteralMatched_follows (tree : ℕ → LzmaProb) (count matchByte symbol : ℕ)
    {offset : ℕ} (hoffset : offset = 0 ∨ offset = 0x100) :
    (readLiteralMatched tree count (symbol >>> 8) offset (matchByte <<< 1)).Follows
      (literalMatchedLoop tree count matchByte symbol offset ++ rest)
      (symbol <<< count >>> 8) rest := by
  induction count generalizing matchByte symbol offset with
  | zero => exact .done _ _
  | succ count ih =>
      rw [readLiteralMatched, literalMatchedLoop, List.cons_append]
      refine .ask ?_
      have hnext := ih (matchByte <<< 1) (symbol <<< 1)
        (matchedOffset_cases hoffset (not32 (matchByte <<< 1 ^^^ symbol <<< 1)))
      have hsymbol : symbol <<< 1 >>> 8 = (symbol >>> 8 <<< 1) + (symbol >>> 7) % 2 := by
        simp only [Nat.shiftLeft_eq, Nat.shiftRight_eq_div_pow]
        omega
      have hshift : symbol <<< 1 <<< count = symbol <<< (count + 1) := by
        rw [← Nat.shiftLeft_add, Nat.add_comm]
      rw [matchedOffset_eq hoffset, hsymbol, hshift] at hnext
      rw [toNat_and_one, matchedOffset_eq hoffset]
      simpa only [decide_eq_true_eq] using hnext

/-- A literal of either kind. -/
theorem readLiteral_follows (props : LzmaProps) (model : LzmaModel) (context : LiteralContext)
    (curByte : UInt8) :
    (readLiteral props model context).Follows
      ((encodeLiteral props model context curByte).1 ++ rest)
      (.literal curByte, (encodeLiteral props model context curByte).2) rest := by
  have hbyte := curByte.toNat_lt
  have hback : UInt8.ofNat (1 * 2 ^ 8 + curByte.toNat % 2 ^ 8) = curByte := by
    apply UInt8.toNat_inj.mp
    rw [UInt8.toNat_ofNat']
    omega
  have hwrite : (Dialogue.done (.literal (UInt8.ofNat (1 * 2 ^ 8 + curByte.toNat % 2 ^ 8)),
      { model with state := model.state.nextState }) :
        Dialogue (RcContext LzmaProb) (LzmaEvent × LzmaModel)).Follows rest
      (.literal curByte, { model with state := model.state.updateLiteral }) rest := by
    rw [hback, LzmaState.nextState_eq]
    exact .done _ _
  rw [readLiteral, encodeLiteral]
  by_cases hliteral : model.state.isLiteral
  · rw [if_pos hliteral, if_pos hliteral]
    exact (readBittree_follows _ curByte.toNat 8 1 rest).bind hwrite
  · rw [if_neg hliteral, if_neg hliteral]
    have hmatched := readLiteralMatched_follows rest
      (.literal (props.literalSubcoder context.position context.prevByte)) 8
      context.matchByte.toNat (curByte.toNat + 1 <<< 8) (.inr rfl)
    have hstart : (curByte.toNat + 1 <<< 8) >>> 8 = 1 := by
      rw [Nat.shiftLeft_eq, Nat.shiftRight_eq_div_pow]
      omega
    have hend : (curByte.toNat + 1 <<< 8) <<< 8 >>> 8 = 1 * 2 ^ 8 + curByte.toNat % 2 ^ 8 := by
      rw [Nat.shiftLeft_eq, Nat.shiftLeft_eq, Nat.shiftRight_eq_div_pow]
      omega
    rw [hstart, hend] at hmatched
    exact hmatched.bind hwrite

theorem readLength_follows (coder : LenProb → LzmaProb) (posState : ℕ) {len : ℕ}
    (hlow : 2 ≤ len) (hhigh : len ≤ 273) :
    (readLength coder posState).Follows (encodeLength coder posState len ++ rest) len rest := by
  rw [readLength, encodeLength]
  dsimp only
  by_cases hshort : len - 2 < 8
  · rw [if_pos hshort, List.cons_append]
    refine .ask ((readBittree_follows _ (len - 2) 3 1 rest).bind ?_)
    have hlen : 1 * 2 ^ 3 + (len - 2) % 2 ^ 3 - 8 + 2 = len := by omega
    rw [hlen]
    exact .done _ _
  · rw [if_neg hshort, List.cons_append]
    by_cases hmiddle : len - 2 - 8 < 8
    · rw [if_pos hmiddle, List.cons_append]
      refine .ask (.ask ((readBittree_follows _ (len - 2 - 8) 3 1 rest).bind ?_))
      have hlen : 1 * 2 ^ 3 + (len - 2 - 8) % 2 ^ 3 - 8 + 2 + 8 = len := by omega
      rw [hlen]
      exact .done _ _
    · rw [if_neg hmiddle, List.cons_append]
      refine .ask (.ask ((readBittree_follows _ (len - 2 - 8 - 8) 8 1 rest).bind ?_))
      have hlen : 1 * 2 ^ 8 + (len - 2 - 8 - 8) % 2 ^ 8 - 256 + 2 + 8 + 8 = len := by omega
      rw [hlen]
      exact .done _ _

/-- The bits below the slot give the distance back. -/
theorem readFooter_follows {slot distance : ℕ} (hslot : 4 ≤ slot)
    (hin : InSlot slot distance) :
    (readFooter slot).Follows (encodeFooter slot distance ++ rest) distance rest := by
  obtain ⟨-, hlow, hhigh⟩ := hin
  have hhalf : slot >>> 1 - 1 = slot / 2 - 1 := by rw [Nat.shiftRight_eq_div_pow, pow_one]
  have hbase : (2 + (slot &&& 1)) <<< (slot >>> 1 - 1) = distBase slot := by
    rw [distBase_eq, Nat.shiftLeft_eq, Nat.and_one_is_mod, hhalf]
  rw [readFooter, encodeFooter, if_neg (Nat.not_lt.mpr hslot), if_pos hslot]
  by_cases hmodel : slot < 14
  · rw [if_pos hmodel, if_pos hmodel, hbase]
    have hback : distBase slot + (distance - distBase slot) % 2 ^ (slot >>> 1 - 1) * 2 ^ 0 =
        distance := by
      rw [hhalf, Nat.mod_eq_of_lt (by omega)]
      omega
    have hfollows := readBittreeReverse_follows
      (fun i => LzmaProb.distSpecial (distBase slot + i - slot - 1)) (distance - distBase slot)
      (slot >>> 1 - 1) 1 0 (distBase slot) rest
    rwa [hback] at hfollows
  · rw [if_neg hmodel, if_neg hmodel, List.append_assoc]
    refine (readDirect_follows _ _ _ _).bind ?_
    have hfollows := readBittreeReverse_follows LzmaProb.distAlign
      ((distance - distBase slot) &&& 15) 4 1 0
      (((2 + (slot &&& 1)) * 2 ^ (slot >>> 1 - 1 - 4) +
        (distance - distBase slot) >>> 4 % 2 ^ (slot >>> 1 - 1 - 4)) <<< 4) rest
    have hback : ((2 + (slot &&& 1)) * 2 ^ (slot >>> 1 - 1 - 4) +
        (distance - distBase slot) >>> 4 % 2 ^ (slot >>> 1 - 1 - 4)) <<< 4 +
        ((distance - distBase slot) &&& 15) % 2 ^ 4 * 2 ^ 0 = distance := by
      have hpower : 2 ^ (slot / 2 - 1) = 2 ^ (slot / 2 - 1 - 4) * 2 ^ 4 := by
        rw [← pow_add]
        congr 1
        omega
      have hmask : (distance - distBase slot) &&& 15 = (distance - distBase slot) % 2 ^ 4 :=
        Nat.and_two_pow_sub_one_eq_mod _ 4
      rw [Nat.shiftLeft_eq, hhalf, hpower, ← Nat.mul_assoc] at hbase
      rw [hpower] at hhigh
      rw [hmask, Nat.shiftLeft_eq, Nat.shiftRight_eq_div_pow _ 4, hhalf,
        Nat.mod_eq_of_lt (by omega : (distance - distBase slot) / 2 ^ 4 < 2 ^ (slot / 2 - 1 - 4)),
        Nat.add_mul, hbase]
      omega
    rwa [hback] at hfollows

theorem readDistance_follows {distance : ℕ} (len : ℕ) (hdistance : distance < 2 ^ 32) :
    (readDistance len).Follows (encodeDistance distance len ++ rest) distance rest := by
  rw [readDistance, encodeDistance, List.append_assoc]
  refine (readBittree_follows _ (getDistSlot distance) 6 1 _).bind ?_
  obtain ⟨hlt, hsame⟩ | ⟨hfour, hlt, hin⟩ := getDistSlot_cases hdistance
  · have hsymbol : 1 * 2 ^ 6 + getDistSlot distance % 2 ^ 6 - 64 = getDistSlot distance := by
      omega
    rw [hsymbol, readFooter, if_pos hlt, encodeFooter, if_neg (Nat.not_le.mpr hlt), hsame]
    exact .done _ _
  · have hsymbol : 1 * 2 ^ 6 + getDistSlot distance % 2 ^ 6 - 64 = getDistSlot distance := by
      omega
    rw [hsymbol]
    exact readFooter_follows rest hfour hin

/-- A match, or the end of payload marker. -/
theorem readMatch_follows (model : LzmaModel) (posState : ℕ) {distance len : ℕ}
    (hdistance : distance < 2 ^ 32) (hlow : 2 ≤ len) (hhigh : len ≤ 273) :
    (readMatch model posState).Follows ((encodeMatch model posState distance len).1 ++ rest)
      (if distance = 2 ^ 32 - 1 then .endMarker else .checkedCopy len,
        (encodeMatch model posState distance len).2) rest := by
  rw [readMatch, encodeMatch, List.append_assoc]
  exact (readLength_follows _ _ _ hlow hhigh).bind
    ((readDistance_follows rest len hdistance).bind (.done _ _))

/-- What `rep_match` may be given: any length for any of the four distances, and a single
byte for the first. -/
def RepCodable (rep len : ℕ) : Prop :=
  rep < 4 ∧ (2 ≤ len ∧ len ≤ 273 ∨ rep = 0 ∧ len = 1)

theorem readRepMatch_follows (model : LzmaModel) (posState : ℕ) {rep len : ℕ}
    (hcodable : RepCodable rep len) :
    (readRepMatch model posState).Follows ((encodeRepMatch model posState rep len).1 ++ rest)
      (if len = 1 then .shortRep else .copy len, (encodeRepMatch model posState rep len).2)
      rest := by
  obtain ⟨hrep, ⟨hlow, hhigh⟩ | ⟨rfl, rfl⟩⟩ := hcodable
  · have hlong : len ≠ 1 := by omega
    have hlength (rep : ℕ) : (readRepLength model posState rep).Follows
        (encodeLength .repLen posState len ++ rest)
        (.copy len, { model.useRep rep with state := model.state.updateLongRep }) rest :=
      (readLength_follows rest _ _ hlow hhigh).bind (.done _ _)
    rw [if_neg hlong, readRepMatch, encodeRepMatch, if_neg hlong]
    dsimp only
    rw [List.append_assoc]
    interval_cases rep
    · refine .ask (.ask ?_)
      rw [decide_eq_true hlong]
      exact hlength 0
    · exact .ask (.ask (hlength 1))
    · exact .ask (.ask (.ask (hlength 2)))
    · exact .ask (.ask (.ask (hlength 3)))
  · exact .ask (.ask (.done _ _))

end Follows

/-- What `encode_symbol` may be given: a literal, a repeated distance, or a distance. -/
def Codable (back len : ℕ) : Prop :=
  back = 2 ^ 32 - 1 ∨ RepCodable back len ∨
    4 ≤ back ∧ back < 2 ^ 32 - 1 ∧ 2 ≤ len ∧ len ≤ 273

/-- The event that stands for a symbol. -/
def eventOf (curByte : UInt8) (back len : ℕ) : LzmaEvent :=
  if back = 2 ^ 32 - 1 then .literal curByte
  else if back < 4 then if len = 1 then .shortRep else .copy len
  else .checkedCopy len

/-- **Round trip of a symbol.** In every state and for every symbol the encoder may be
given, the bits it queues lead the decoder's loop to that symbol and to the encoder's
next state. -/
theorem readSymbol_follows (props : LzmaProps) (model : LzmaModel) (context : LiteralContext)
    (curByte : UInt8) {back len : ℕ} (hcodable : Codable back len) {empty : Bool}
    (hempty : back < 4 → empty = false) (rest : List LzmaBit) :
    (readSymbol props model context empty).Follows
      ((encodeSymbol props model context curByte back len).1 ++ rest)
      (eventOf curByte back len, (encodeSymbol props model context curByte back len).2) rest := by
  rw [readSymbol, encodeSymbol, eventOf]
  dsimp only
  obtain rfl | hrep | ⟨hlow, hhigh, hlen⟩ := hcodable
  · rw [if_pos rfl, if_pos rfl]
    exact .ask (readLiteral_follows rest props model context curByte)
  · have hfour := hrep.1
    have hne : back ≠ 2 ^ 32 - 1 := by omega
    rw [if_neg hne, if_neg hne, if_pos hfour, if_pos hfour]
    refine .ask (.ask ?_)
    dsimp only
    rw [hempty hfour, if_neg Bool.false_ne_true]
    exact readRepMatch_follows rest model _ hrep
  · have hne : back ≠ 2 ^ 32 - 1 := by omega
    have hfour : ¬back < 4 := by omega
    rw [if_neg hne, if_neg hne, if_neg hfour, if_neg hfour]
    refine .ask (.ask ?_)
    have hmatch := readMatch_follows rest model (props.posState context.position)
      (by omega : back - 4 < 2 ^ 32) hlen.1 hlen.2
    rwa [if_neg (by omega : back - 4 ≠ 2 ^ 32 - 1)] at hmatch

/-- The end of payload marker is read as such. -/
theorem readSymbol_follows_eopm (props : LzmaProps) (model : LzmaModel)
    (context : LiteralContext) (empty : Bool) (rest : List LzmaBit) :
    ∃ after, (readSymbol props model context empty).Follows
      (encodeEopm props model context.position ++ rest) (.endMarker, after) rest := by
  have hmatch := readMatch_follows rest model (props.posState context.position)
    (by norm_num : 2 ^ 32 - 1 < 2 ^ 32) (le_refl 2) (by norm_num)
  rw [if_pos rfl] at hmatch
  exact ⟨_, .ask (.ask hmatch)⟩

/-! ## Bounds -/

/-- An index of a length coder is inside its array. -/
def LenProb.InBounds : LenProb → Prop
  | .choice => True
  | .choice2 => True
  | .low posState symbol => posState < 16 ∧ symbol < 8
  | .mid posState symbol => posState < 16 ∧ symbol < 8
  | .high symbol => symbol < 256

instance : DecidablePred LenProb.InBounds
  | .choice => .isTrue trivial
  | .choice2 => .isTrue trivial
  | .low _ _ => inferInstanceAs (Decidable (_ ∧ _))
  | .mid _ _ => inferInstanceAs (Decidable (_ ∧ _))
  | .high _ => inferInstanceAs (Decidable (_ < _))

/-- An index is inside the array the coders declare. -/
def LzmaProb.InBounds : LzmaProb → Prop
  | .literal subcoder index => subcoder < 16 ∧ index < 0x300
  | .isMatch _ posState => posState < 16
  | .isRep _ => True
  | .isRep0 _ => True
  | .isRep1 _ => True
  | .isRep2 _ => True
  | .isRep0Long _ posState => posState < 16
  | .distSlot distState symbol => distState < 4 ∧ symbol < 64
  | .distSpecial index => index < 128 - 14
  | .distAlign index => index < 16
  | .matchLen prob => prob.InBounds
  | .repLen prob => prob.InBounds

instance : DecidablePred LzmaProb.InBounds
  | .literal _ _ => inferInstanceAs (Decidable (_ ∧ _))
  | .isMatch _ _ => inferInstanceAs (Decidable (_ < _))
  | .isRep _ => .isTrue trivial
  | .isRep0 _ => .isTrue trivial
  | .isRep1 _ => .isTrue trivial
  | .isRep2 _ => .isTrue trivial
  | .isRep0Long _ _ => inferInstanceAs (Decidable (_ < _))
  | .distSlot _ _ => inferInstanceAs (Decidable (_ ∧ _))
  | .distSpecial _ => inferInstanceAs (Decidable (_ < _))
  | .distAlign _ => inferInstanceAs (Decidable (_ < _))
  | .matchLen prob => inferInstanceAs (Decidable prob.InBounds)
  | .repLen prob => inferInstanceAs (Decidable prob.InBounds)

/-- A bit is coded with a probability that exists. -/
def RcContext.InBounds : RcContext LzmaProb → Prop
  | .prob index => index.InBounds
  | .direct => True

instance : DecidablePred RcContext.InBounds
  | .prob index => inferInstanceAs (Decidable index.InBounds)
  | .direct => .isTrue trivial

/-- All four distances have a property. -/
structure LzmaModel.Reps (P : ℕ → Prop) (model : LzmaModel) : Prop where
  rep0 : P model.rep0
  rep1 : P model.rep1
  rep2 : P model.rep2
  rep3 : P model.rep3

/-- What a symbol leaves: a match has one of the lengths the coder knows, distances are
either among those before or new and of 32 bits, and before the first byte there is no
repeated match. -/
def LzmaEvent.Leaves (P : ℕ → Prop) (empty : Bool) : LzmaEvent × LzmaModel → Prop
  | (.literal _, model) => model.state.isLiteral ∧ model.Reps P
  | (.shortRep, model) => empty = false ∧ model.Reps P
  | (.copy len, model) => empty = false ∧ (2 ≤ len ∧ len ≤ 273) ∧ model.Reps P
  | (.checkedCopy len, model) =>
      (2 ≤ len ∧ len ≤ 273) ∧ model.rep0 < 2 ^ 32 ∧ P model.rep1 ∧ P model.rep2 ∧ P model.rep3
  | (.endMarker, _) => True
  | (.invalid, _) => empty = true

section Bounds

theorem posState_lt (props : LzmaProps) (position : ℕ) : props.posState position < 16 := by
  rw [LzmaProps.posState, Nat.shiftLeft_eq, Nat.one_mul, Nat.and_two_pow_sub_one_eq_mod]
  calc position % 2 ^ props.pb < 2 ^ props.pb := Nat.mod_lt _ (Nat.two_pow_pos _)
    _ ≤ 2 ^ 4 := Nat.pow_le_pow_right (by norm_num) props.pb_le

theorem literalSubcoder_lt (props : LzmaProps) (position : ℕ) (prevByte : UInt8) :
    props.literalSubcoder position prevByte < 16 := by
  have hlclp := props.lclp_le
  have hbyte := prevByte.toNat_lt
  have hprev : prevByte.toNat >>> (8 - props.lc) < 2 ^ props.lc := by
    rw [Nat.shiftRight_eq_div_pow, Nat.div_lt_iff_lt_mul (Nat.two_pow_pos _), ← pow_add]
    have height : props.lc + (8 - props.lc) = 8 := by omega
    rw [height]
    exact hbyte
  have hposition : position % 2 ^ props.lp < 2 ^ props.lp := Nat.mod_lt _ (Nat.two_pow_pos _)
  rw [LzmaProps.literalSubcoder, Nat.shiftLeft_eq 1, Nat.one_mul, Nat.and_two_pow_sub_one_eq_mod,
    Nat.shiftLeft_eq]
  calc position % 2 ^ props.lp * 2 ^ props.lc + prevByte.toNat >>> (8 - props.lc)
      < (position % 2 ^ props.lp + 1) * 2 ^ props.lc := by
        rw [Nat.add_mul, Nat.one_mul]
        exact Nat.add_lt_add_left hprev _
    _ ≤ 2 ^ props.lp * 2 ^ props.lc := Nat.mul_le_mul_right _ hposition
    _ = 2 ^ (props.lc + props.lp) := by rw [← pow_add, Nat.add_comm]
    _ ≤ 2 ^ 4 := Nat.pow_le_pow_right (by norm_num) hlclp

/-- The index of a bit tree: the bits read so far behind a leading one. -/
structure TreeIndex (levels count symbol : ℕ) : Prop where
  low : 2 ^ levels ≤ symbol * 2 ^ count
  high : (symbol + 1) * 2 ^ count ≤ 2 ^ (levels + 1)

theorem treeIndex_one (levels : ℕ) : TreeIndex levels levels 1 := by
  constructor
  · rw [Nat.one_mul]
  · rw [pow_succ', Nat.mul_comm]

variable {levels count symbol : ℕ}

theorem TreeIndex.pos (hindex : TreeIndex levels count symbol) : 1 ≤ symbol := by
  by_contra hzero
  have hlow := hindex.low
  rw [Nat.lt_one_iff.mp (Nat.not_le.mp hzero), Nat.zero_mul] at hlow
  exact absurd hlow (Nat.not_le.mpr (Nat.two_pow_pos _))

theorem TreeIndex.lt (hindex : TreeIndex levels (count + 1) symbol) : symbol < 2 ^ levels := by
  have hhigh := hindex.high
  rw [pow_succ, pow_succ, ← Nat.mul_assoc] at hhigh
  have hle : (symbol + 1) * 1 ≤ (symbol + 1) * 2 ^ count :=
    Nat.mul_le_mul_left _ (Nat.two_pow_pos _)
  omega

theorem TreeIndex.next (hindex : TreeIndex levels (count + 1) symbol) (bit : Bool) :
    TreeIndex levels count ((symbol <<< 1) + bit.toNat) := by
  obtain ⟨hlow, hhigh⟩ := hindex
  rw [Nat.shiftLeft_eq, pow_one]
  have hbit : bit.toNat ≤ 1 := Bool.toNat_le bit
  constructor
  · calc 2 ^ levels ≤ symbol * 2 ^ (count + 1) := hlow
      _ = symbol * 2 * 2 ^ count := by ring
      _ ≤ (symbol * 2 + bit.toNat) * 2 ^ count := Nat.mul_le_mul_right _ (Nat.le_add_right _ _)
  · calc (symbol * 2 + bit.toNat + 1) * 2 ^ count
        ≤ (symbol * 2 + 2) * 2 ^ count := Nat.mul_le_mul_right _ (by omega)
      _ = (symbol + 1) * 2 ^ (count + 1) := by ring
      _ ≤ 2 ^ (levels + 1) := hhigh

variable {ι : Type} {Asked : RcContext ι → Prop} {tree : ℕ → ι}

/-- A bit tree of so many levels has an index for each level, and ends with a number of
so many bits behind the leading one. -/
theorem meets_readBittree (hindex : TreeIndex levels count symbol)
    (hasked : ∀ i, 1 ≤ i → i < 2 ^ levels → Asked (.prob (tree i))) :
    (readBittree tree count symbol).Meets Asked
      fun number => 2 ^ levels ≤ number ∧ number < 2 ^ (levels + 1) := by
  induction count generalizing symbol with
  | zero =>
      obtain ⟨hlow, hhigh⟩ := hindex
      rw [pow_zero, Nat.mul_one] at hlow hhigh
      exact ⟨hlow, hhigh⟩
  | succ count ih => exact ⟨hasked _ hindex.pos hindex.lt, fun bit => ih (hindex.next bit)⟩

theorem meets_readBittreeReverse {offset number : ℕ} (hindex : TreeIndex levels count symbol)
    (hasked : ∀ i, 1 ≤ i → i < 2 ^ levels → Asked (.prob (tree i))) :
    (readBittreeReverse tree count symbol offset number).Meets Asked
      fun result => result + 2 ^ offset ≤ number + 2 ^ (offset + count) := by
  induction count generalizing symbol offset number with
  | zero => exact le_rfl
  | succ count ih =>
      refine ⟨hasked _ hindex.pos hindex.lt, fun bit => ?_⟩
      refine (ih (hindex.next bit)).imp fun result hresult => ?_
      have hbit : bit.toNat * 2 ^ offset ≤ 1 * 2 ^ offset :=
        Nat.mul_le_mul_right _ (Bool.toNat_le bit)
      have hpower : offset + 1 + count = offset + (count + 1) := by omega
      rw [Nat.shiftLeft_eq, hpower, pow_succ 2 offset] at hresult
      omega

theorem meets_readDirect (hasked : Asked .direct) (number : ℕ) :
    (readDirect count number).Meets Asked fun result => result < (number + 1) * 2 ^ count := by
  induction count generalizing number with
  | zero =>
      rw [pow_zero, Nat.mul_one]
      exact Nat.lt_succ_self number
  | succ count ih =>
      refine ⟨hasked, fun bit => (ih _).imp fun result hresult => hresult.trans_le ?_⟩
      have hbit := Bool.toNat_le bit
      calc ((number <<< 1) + bit.toNat + 1) * 2 ^ count
          ≤ ((number + 1) * 2) * 2 ^ count := by
            rw [Nat.shiftLeft_eq]
            exact Nat.mul_le_mul_right _ (by omega)
        _ = (number + 1) * 2 ^ (count + 1) := by ring

theorem meets_readLiteralMatched {subcoder len offset : ℕ} (hsubcoder : subcoder < 16)
    (hoffset : offset = 0 ∨ offset = 0x100) (hindex : TreeIndex 8 count symbol) :
    (readLiteralMatched (.literal subcoder) count symbol offset len).Meets RcContext.InBounds
      fun _ => True := by
  induction count generalizing symbol offset len with
  | zero => trivial
  | succ count ih =>
      have hmatch : len &&& offset ≤ 0x100 := by
        obtain rfl | rfl := hoffset
        · rw [Nat.and_zero]
          exact Nat.zero_le _
        · exact Nat.and_le_right
      have hbyte : symbol < 2 ^ 8 := hindex.lt
      refine ⟨⟨hsubcoder, by omega⟩, fun bit => ih ?_ (hindex.next bit)⟩
      cases bit
      · exact matchedOffset_cases hoffset _
      · exact matchedOffset_cases hoffset _

theorem meets_readLength (coder : LenProb → LzmaProb) {posState : ℕ} (hposState : posState < 16)
    (hcoder : ∀ prob : LenProb, prob.InBounds → (coder prob).InBounds) :
    (readLength coder posState).Meets RcContext.InBounds fun len => 2 ≤ len ∧ len ≤ 273 := by
  refine ⟨hcoder _ trivial, fun choice => ?_⟩
  cases choice with
  | false =>
      refine (meets_readBittree (treeIndex_one 3)
        fun i _ hi => hcoder (.low posState i) ⟨hposState, hi⟩).bind ?_
      rintro symbol ⟨hlow, hhigh⟩
      exact ⟨by omega, by omega⟩
  | true =>
      refine ⟨hcoder _ trivial, fun choice => ?_⟩
      cases choice with
      | false =>
          refine (meets_readBittree (treeIndex_one 3)
            fun i _ hi => hcoder (.mid posState i) ⟨hposState, hi⟩).bind ?_
          rintro symbol ⟨hlow, hhigh⟩
          exact ⟨by omega, by omega⟩
      | true =>
          refine (meets_readBittree (treeIndex_one 8)
            fun i _ hi => hcoder (.high i) hi).bind ?_
          rintro symbol ⟨hlow, hhigh⟩
          exact ⟨by omega, by omega⟩

/-- The tree of each slot lies inside its array, although the array begins late. -/
theorem distSpecial_inBounds {slot i : ℕ} (hlow : 4 ≤ slot) (hhigh : slot < 14) (hpos : 1 ≤ i)
    (hi : i < 2 ^ (slot >>> 1 - 1)) :
    (2 + (slot &&& 1)) <<< (slot >>> 1 - 1) + i - slot - 1 < 128 - 14 := by
  interval_cases slot <;> norm_num [Nat.shiftLeft_eq, Nat.shiftRight_eq_div_pow] at hi ⊢ <;> omega

theorem meets_readFooter {slot : ℕ} (hslot : slot < 64) :
    (readFooter slot).Meets RcContext.InBounds fun distance => distance < 2 ^ 32 := by
  rw [readFooter]
  have hhalf : slot >>> 1 - 1 = slot / 2 - 1 := by rw [Nat.shiftRight_eq_div_pow, pow_one]
  have hbit : slot &&& 1 ≤ 1 := Nat.and_le_right
  by_cases hfour : slot < 4
  · rw [if_pos hfour]
    exact hfour.trans (by norm_num)
  · rw [if_neg hfour]
    dsimp only
    by_cases hmodel : slot < 14
    · rw [if_pos hmodel]
      refine (meets_readBittreeReverse (treeIndex_one _) fun i hpos hi =>
        distSpecial_inBounds (Nat.not_lt.mp hfour) hmodel hpos hi).imp fun distance hdistance => ?_
      rw [hhalf, Nat.shiftLeft_eq] at hdistance
      have hpower : 2 ^ (slot / 2 - 1) ≤ 2 ^ 5 := Nat.pow_le_pow_right (by norm_num) (by omega)
      have hbase : (2 + (slot &&& 1)) * 2 ^ (slot / 2 - 1) ≤ 3 * 2 ^ 5 :=
        Nat.mul_le_mul (by omega) hpower
      rw [pow_zero, Nat.zero_add] at hdistance
      omega
    · rw [if_neg hmodel]
      refine (meets_readDirect trivial _).bind fun rep0 hrep0 =>
        (meets_readBittreeReverse (treeIndex_one 4) fun i _ hi => hi).imp
          fun distance hdistance => ?_
      have hpower : 2 ^ (slot >>> 1 - 1 - 4) ≤ 2 ^ 26 :=
        Nat.pow_le_pow_right (by norm_num) (by omega)
      have hbase : (2 + (slot &&& 1) + 1) * 2 ^ (slot >>> 1 - 1 - 4) ≤ 4 * 2 ^ 26 :=
        Nat.mul_le_mul (by omega) hpower
      rw [Nat.shiftLeft_eq] at hdistance
      omega

theorem meets_readDistance (len : ℕ) (hlen : 2 ≤ len) :
    (readDistance len).Meets RcContext.InBounds fun distance => distance < 2 ^ 32 := by
  have hstate : getDistState len < 4 := by
    rw [getDistState]
    split <;> omega
  refine (meets_readBittree (treeIndex_one 6) fun i _ hi => ⟨hstate, hi⟩).bind ?_
  rintro symbol ⟨hlow, hhigh⟩
  exact meets_readFooter (by omega)

variable {P : ℕ → Prop} {model : LzmaModel} {posState : ℕ}

/-- A literal, a match and a repeated match ask for probabilities that exist. -/
theorem meets_readLiteral (props : LzmaProps) (hmodel : model.Reps P)
    (context : LiteralContext) (empty : Bool) :
    (readLiteral props model context).Meets RcContext.InBounds (LzmaEvent.Leaves P empty) := by
  have hsubcoder := literalSubcoder_lt props context.position context.prevByte
  have hstate : model.state.nextState.isLiteral = true := by
    cases model.state <;> rfl
  have hmodel' : ({ model with state := model.state.nextState } : LzmaModel).Reps P :=
    ⟨hmodel.rep0, hmodel.rep1, hmodel.rep2, hmodel.rep3⟩
  rw [readLiteral]
  by_cases hliteral : model.state.isLiteral
  · rw [if_pos hliteral]
    refine (meets_readBittree (treeIndex_one 8) fun i _ hi =>
      ⟨hsubcoder, hi.trans (by norm_num)⟩).bind fun symbol _ => ⟨hstate, hmodel'⟩
  · rw [if_neg hliteral]
    exact (meets_readLiteralMatched hsubcoder (.inr rfl) (treeIndex_one 8)).bind
      fun symbol _ => ⟨hstate, hmodel'⟩

theorem meets_readMatch (hmodel : model.Reps P) (hposState : posState < 16) (empty : Bool) :
    (readMatch model posState).Meets RcContext.InBounds (LzmaEvent.Leaves P empty) := by
  refine (meets_readLength .matchLen hposState fun _ hprob => hprob).bind fun len hlen =>
    (meets_readDistance len hlen.1).bind fun rep0 hrep0 => ?_
  by_cases hmarker : rep0 = 2 ^ 32 - 1
  · rw [if_pos hmarker]
    trivial
  · rw [if_neg hmarker]
    exact ⟨hlen, hrep0, hmodel.rep0, hmodel.rep1, hmodel.rep2⟩

theorem reps_useRep (hmodel : model.Reps P) (rep : ℕ) (state : LzmaState) :
    ({ model.useRep rep with state := state } : LzmaModel).Reps P := by
  obtain ⟨h0, h1, h2, h3⟩ := hmodel
  match rep with
  | 0 => exact ⟨h0, h1, h2, h3⟩
  | 1 => exact ⟨h1, h0, h2, h3⟩
  | 2 => exact ⟨h2, h0, h1, h3⟩
  | _ + 3 => exact ⟨h3, h0, h1, h2⟩

theorem meets_readRepMatch (hmodel : model.Reps P) (hposState : posState < 16) :
    (readRepMatch model posState).Meets RcContext.InBounds (LzmaEvent.Leaves P false) := by
  have hlength (rep : ℕ) : (readRepLength model posState rep).Meets RcContext.InBounds
      (LzmaEvent.Leaves P false) :=
    (meets_readLength .repLen hposState fun _ hprob => hprob).bind fun len hlen =>
      ⟨rfl, hlen, reps_useRep hmodel rep _⟩
  refine ⟨trivial, fun rep0 => ?_⟩
  cases rep0 with
  | false =>
      refine ⟨hposState, fun long => ?_⟩
      cases long with
      | false => exact ⟨rfl, reps_useRep hmodel 0 _⟩
      | true => exact hlength 0
  | true =>
      refine ⟨trivial, fun rep1 => ?_⟩
      cases rep1 with
      | false => exact hlength 1
      | true =>
          refine ⟨trivial, fun rep2 => ?_⟩
          cases rep2 with
          | false => exact hlength 2
          | true => exact hlength 3

end Bounds

/-- **No probability outside its array.** Whatever bits the input contains, reading one
symbol uses only probabilities that exist; and what it leaves is a length the dictionary
can be asked for, and distances that were there before or have to be checked. -/
theorem meets_readSymbol {P : ℕ → Prop} (props : LzmaProps) {model : LzmaModel}
    (hmodel : model.Reps P) (context : LiteralContext) (empty : Bool) :
    (readSymbol props model context empty).Meets RcContext.InBounds
      (LzmaEvent.Leaves P empty) := by
  have hposState := posState_lt props context.position
  refine ⟨hposState, fun isMatch => ?_⟩
  cases isMatch with
  | false => exact meets_readLiteral props hmodel context empty
  | true =>
      refine ⟨trivial, fun isRep => ?_⟩
      cases isRep with
      | false => exact meets_readMatch hmodel hposState empty
      | true =>
          cases empty with
          | false => exact meets_readRepMatch hmodel hposState
          | true => rfl

end Dht
