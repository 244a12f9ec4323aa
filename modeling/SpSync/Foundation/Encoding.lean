import Mathlib.Algebra.GroupWithZero.Nat
import Mathlib.Data.List.Basic

namespace SpSync.Foundation.Encoding

variable {width left right length : Nat}

/-- The lowest octet of a number. -/
def octet (value : Nat) : Fin 256 :=
  ⟨value % 256, Nat.mod_lt _ (by decide)⟩

/-- The lowest octets of a number, the highest of them first. -/
def bigEndian (width value : Nat) : List (Fin 256) :=
  (List.range width).reverse.map fun place => octet (value >>> (8 * place))

/-- The number that the octets stand for. -/
def number (octets : List (Fin 256)) : Nat :=
  octets.foldl (fun value octet => value * 256 + octet.val) 0

theorem length_bigEndian (width value : Nat) : (bigEndian width value).length = width := by
  simp [bigEndian]

theorem bigEndian_succ (width value : Nat) :
    bigEndian (width + 1) value = bigEndian width (value / 256) ++ [octet value] := by
  unfold bigEndian
  rw [List.range_succ_eq_map, List.reverse_cons, List.map_append, ← List.map_reverse, List.map_map]
  congr 1
  apply List.map_congr_left
  intro place _
  have shifted : value >>> (8 * (place + 1)) = (value / 256) >>> (8 * place) := by
    rw [Nat.mul_add, Nat.add_comm, Nat.shiftRight_add, Nat.mul_one, Nat.shiftRight_eq_div_pow value 8]
  exact congrArg octet shifted

theorem number_append_singleton (octets : List (Fin 256)) (last : Fin 256) :
    number (octets ++ [last]) = number octets * 256 + last.val := by
  rw [number, List.foldl_append]
  rfl

theorem number_bigEndian {value : Nat} (fits : value < 256 ^ width) : number (bigEndian width value) = value := by
  induction width generalizing value with
  | zero =>
    rw [Nat.pow_zero] at fits
    show 0 = value
    omega
  | succ width ih =>
    rw [Nat.pow_succ] at fits
    rw [bigEndian_succ, number_append_singleton, ih (by omega)]
    show value / 256 * 256 + value % 256 = value
    omega

theorem bigEndian_inj (leftFits : left < 256 ^ width) (rightFits : right < 256 ^ width)
    (same : bigEndian width left = bigEndian width right) : left = right := by
  rw [← number_bigEndian leftFits, ← number_bigEndian rightFits, same]

/-- The fewest octets that hold a length of two octets or more. -/
def lengthWidth (length : Nat) : Nat :=
  length.log2 / 8 + 1

/-- Short lengths stand for themselves, others follow the number of their octets. -/
def encodeLength (length : Nat) : List (Fin 256) :=
  if length < 128 then [octet length]
  else octet (128 + lengthWidth length) :: bigEndian (lengthWidth length) length

def encode (tag : Fin 256) (content : List (Fin 256)) : List (Fin 256) :=
  tag :: (encodeLength content.length ++ content)

/-- The octets of a tag after its first one; the last of them is below 128. -/
def readTagRest : List (Fin 256) → Option (List (Fin 256) × List (Fin 256))
  | [] => none
  | first :: rest =>
      if first.val < 128 then some ([first], rest)
      else (readTagRest rest).map fun read => (first :: read.1, read.2)

/-- A tag of one octet, or of more where its number is 31. -/
def readTag : List (Fin 256) → Option (List (Fin 256) × List (Fin 256))
  | [] => none
  | first :: rest =>
      if first.val % 32 = 31 then (readTagRest rest).map fun read => (first :: read.1, read.2)
      else some ([first], rest)

/-- A definite length. -/
def readLength : List (Fin 256) → Option (Nat × List (Fin 256))
  | [] => none
  | first :: rest =>
      if first.val < 128 then some (first.val, rest)
      else if first.val = 128 ∨ rest.length < first.val - 128 then none
      else some (number (rest.take (first.val - 128)), rest.drop (first.val - 128))

/-- The tag and the content of the first value, and what follows it. -/
def readValue (octets : List (Fin 256)) : Option (List (Fin 256) × List (Fin 256) × List (Fin 256)) :=
  match readTag octets with
  | none => none
  | some (tag, afterTag) =>
      match readLength afterTag with
      | none => none
      | some (length, rest) =>
          if rest.length < length then none else some (tag, rest.take length, rest.drop length)

/-- The octets are one complete value. -/
def IsValue (octets : List (Fin 256)) : Prop :=
  ∃ tag content, readValue octets = some (tag, content, [])

section Append

variable {octets rest more tag content : List (Fin 256)} {length : Nat}

theorem readTagRest_append (read : readTagRest octets = some (tag, rest)) :
    readTagRest (octets ++ more) = some (tag, rest ++ more) := by
  induction octets generalizing tag with
  | nil => cases read
  | cons first others ih =>
    rw [List.cons_append]
    unfold readTagRest at read ⊢
    split at read
    · rename_i last
      cases read
      rw [if_pos last]
    · rename_i further
      rw [if_neg further]
      obtain ⟨⟨read, left⟩, found, same⟩ := Option.map_eq_some_iff.mp read
      cases same
      rw [ih found]
      rfl

theorem readTag_append (read : readTag octets = some (tag, rest)) :
    readTag (octets ++ more) = some (tag, rest ++ more) := by
  cases octets with
  | nil => cases read
  | cons first others =>
    simp only [List.cons_append, readTag] at read ⊢
    split at read
    · rename_i long
      rw [if_pos long]
      obtain ⟨⟨read, left⟩, found, same⟩ := Option.map_eq_some_iff.mp read
      cases same
      rw [readTagRest_append found]
      rfl
    · rename_i short
      cases read
      rw [if_neg short]

theorem readLength_append (read : readLength octets = some (length, rest)) :
    readLength (octets ++ more) = some (length, rest ++ more) := by
  cases octets with
  | nil => cases read
  | cons first others =>
    simp only [List.cons_append, readLength] at read ⊢
    split at read
    · rename_i short
      cases read
      rw [if_pos short]
    · rename_i long
      rw [if_neg long]
      split at read
      · cases read
      rename_i enough
      obtain ⟨rfl, rfl⟩ := Prod.mk.inj (Option.some.inj read)
      rw [if_neg (by rw [List.length_append]; omega), List.take_append_of_le_length (by omega),
        List.drop_append_of_le_length (by omega)]

/-- A value is read alike whatever follows it. -/
theorem readValue_append (read : readValue octets = some (tag, content, rest)) :
    readValue (octets ++ more) = some (tag, content, rest ++ more) := by
  unfold readValue at read ⊢
  split at read
  · cases read
  rename_i first afterTag tagged
  rw [readTag_append tagged]
  dsimp only
  split at read
  · cases read
  rename_i length left measured
  rw [readLength_append measured]
  dsimp only
  split at read
  · cases read
  rename_i enough
  cases read
  rw [if_neg (by rw [List.length_append]; omega), List.take_append_of_le_length (by omega),
    List.drop_append_of_le_length (by omega)]

end Append

/-- No complete value starts another one. -/
theorem IsValue.append_inj {left right leftRest rightRest : List (Fin 256)} (leftValue : IsValue left)
    (rightValue : IsValue right) (same : left ++ leftRest = right ++ rightRest) :
    left = right ∧ leftRest = rightRest := by
  obtain ⟨leftTag, leftContent, leftRead⟩ := leftValue
  obtain ⟨rightTag, rightContent, rightRead⟩ := rightValue
  have first : readValue (left ++ leftRest) = some (leftTag, leftContent, leftRest) := readValue_append leftRead
  rw [same, readValue_append rightRead] at first
  have rests : rightRest = leftRest := by simpa using congrArg (fun read => read.map fun value => value.2.2) first
  rw [rests] at same
  exact ⟨List.append_cancel_right same, rests.symm⟩

theorem lt_pow_lengthWidth (length : Nat) : length < 256 ^ lengthWidth length := by
  have bits : length < 2 ^ (length.log2 + 1) := Nat.lt_log2_self
  have wide : length.log2 + 1 ≤ 8 * lengthWidth length := by
    unfold lengthWidth
    omega
  calc length < 2 ^ (length.log2 + 1) := bits
    _ ≤ 2 ^ (8 * lengthWidth length) := Nat.pow_le_pow_right (by decide) wide
    _ = 256 ^ lengthWidth length := Nat.pow_mul ..

theorem lengthWidth_lt (small : length < 2 ^ 200) : lengthWidth length < 128 := by
  have bits : length.log2 < 200 := by
    by_cases zero : length = 0
    · rw [zero]
      decide
    · exact (Nat.log2_lt zero).mpr small
  unfold lengthWidth
  omega

theorem readLength_encodeLength (fits : lengthWidth length < 128) (rest : List (Fin 256)) :
    readLength (encodeLength length ++ rest) = some (length, rest) := by
  unfold encodeLength
  split
  · rename_i short
    have same : (octet length).val = length := Nat.mod_eq_of_lt (by omega)
    rw [List.singleton_append, readLength, same, if_pos short]
  · rename_i long
    have first : (octet (128 + lengthWidth length)).val = 128 + lengthWidth length := Nat.mod_eq_of_lt (by omega)
    have positive : 0 < lengthWidth length := Nat.succ_pos _
    have digits := length_bigEndian (lengthWidth length) length
    rw [List.cons_append, readLength, first, if_neg (by omega), Nat.add_sub_cancel_left,
      if_neg (by rw [List.length_append]; omega), List.take_left' digits, List.drop_left' digits,
      number_bigEndian (lt_pow_lengthWidth length)]

/-- An encoded value is read back. -/
theorem readValue_encode {tag : Fin 256} {content : List (Fin 256)} (single : tag.val % 32 ≠ 31)
    (fits : lengthWidth content.length < 128) (rest : List (Fin 256)) :
    readValue (encode tag content ++ rest) = some ([tag], content, rest) := by
  unfold readValue encode
  rw [List.cons_append, readTag, if_neg single, List.append_assoc]
  dsimp only
  rw [readLength_encodeLength fits]
  dsimp only
  rw [if_neg (by rw [List.length_append]; omega), List.take_left, List.drop_left]

/-- The octets of a length field. -/
def lengthSize (length : Nat) : Nat :=
  (encodeLength length).length

theorem lengthSize_eq (length : Nat) :
    lengthSize length = if length < 128 then 1 else lengthWidth length + 1 := by
  unfold lengthSize encodeLength
  split
  · rfl
  · rw [List.length_cons, length_bigEndian]

theorem length_encode (tag : Fin 256) (content : List (Fin 256)) :
    (encode tag content).length = 1 + lengthSize content.length + content.length := by
  rw [encode, List.length_cons, List.length_append, lengthSize]
  omega

/-- Longer contents need no shorter length field. -/
theorem lengthSize_mono (less : left ≤ right) : lengthSize left ≤ lengthSize right := by
  rw [lengthSize_eq, lengthSize_eq]
  split
  · split
    · omega
    · omega
  · rename_i long
    rw [if_neg (by omega)]
    have least : 2 ^ left.log2 ≤ left := Nat.log2_self_le (by omega)
    have bits : left.log2 ≤ right.log2 := (Nat.le_log2 (by omega)).mpr (Nat.le_trans least less)
    unfold lengthWidth
    omega

end SpSync.Foundation.Encoding
