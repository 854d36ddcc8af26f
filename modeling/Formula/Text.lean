/-!
# Text

What the analysis needs to know about characters: which of them separate lexemes without being
part of one, and how many bytes a piece of text takes.

Places in a formula are counted in bytes of its UTF-8 form, so `byteSize` is the measure by which
every position is computed. It is additive (`byteSize_append`) and it agrees with the size of the
string itself (`byteSize_toList`). A number of bytes need not end with a character:
`prefixOfSize?` cuts a text only where one does.
-/

namespace Formula.Text

/-! ### Blanks -/

/-- The code points with the Unicode property `White_Space`, as inclusive ranges. -/
def blankRanges : List (Nat × Nat) :=
  [(0x09, 0x0D), (0x20, 0x20), (0x85, 0x85), (0xA0, 0xA0), (0x1680, 0x1680), (0x2000, 0x200A),
    (0x2028, 0x2029), (0x202F, 0x202F), (0x205F, 0x205F), (0x3000, 0x3000)]

/-- A blank separates lexemes and belongs to none. -/
def isBlank (c : Char) : Bool :=
  blankRanges.any fun range => range.1 ≤ c.toNat && c.toNat ≤ range.2

/-- The class covers every character that the standard library takes for a blank. -/
theorem isBlank_of_isWhitespace {c : Char} (h : c.isWhitespace) : isBlank c := by
  simp only [Char.isWhitespace, Bool.or_eq_true, decide_eq_true_eq] at h
  rcases h with ((rfl | rfl) | rfl) | rfl <;> decide

/-- Drops the blanks in front of the first other character. -/
def trimStart (text : List Char) : List Char :=
  text.dropWhile isBlank

/-- Drops the blanks behind the last other character. -/
def trimEnd (text : List Char) : List Char :=
  (text.reverse.dropWhile isBlank).reverse

/-- Drops the blanks at both ends. -/
def trim (text : List Char) : List Char :=
  trimEnd (trimStart text)

@[simp] theorem trimStart_nil : trimStart [] = [] := rfl

theorem trimStart_length_le (text : List Char) : (trimStart text).length ≤ text.length :=
  (List.dropWhile_suffix isBlank).length_le

/-! ### Size in bytes -/

/-- The number of bytes that the characters take in UTF-8. -/
def byteSize (text : List Char) : Nat :=
  text.foldr (fun c size => c.utf8Size + size) 0

@[simp] theorem byteSize_nil : byteSize [] = 0 := rfl

@[simp] theorem byteSize_cons (c : Char) (text : List Char) :
    byteSize (c :: text) = c.utf8Size + byteSize text := rfl

@[simp] theorem byteSize_append (front back : List Char) :
    byteSize (front ++ back) = byteSize front + byteSize back := by
  induction front with
  | nil => simp
  | cons c front ih => rw [List.cons_append, byteSize_cons, ih, byteSize_cons, Nat.add_assoc]

/-- **Agreement with strings.** The size of a string is the size of its characters. -/
theorem byteSize_toList (s : String) : byteSize s.toList = s.utf8ByteSize := by
  obtain ⟨text, rfl⟩ := s.exists_eq_ofList
  induction text with
  | nil => simp
  | cons c text ih =>
    rw [String.ofList_cons]
    simp_all

theorem byteSize_eq_zero_iff {text : List Char} : byteSize text = 0 ↔ text = [] := by
  cases text with
  | nil => simp
  | cons c text =>
    have := c.utf8Size_pos
    simp
    omega

theorem byteSize_le_of_prefix {word text : List Char} (h : word <+: text) :
    byteSize word ≤ byteSize text := by
  obtain ⟨rest, rfl⟩ := h
  rw [byteSize_append]
  exact Nat.le_add_right ..

/-- Of two prefixes of a text, the one with more characters has more bytes. -/
theorem byteSize_lt_of_prefix {word longer text : List Char} (hword : word <+: text)
    (hlonger : longer <+: text) (hlt : word.length < longer.length) :
    byteSize word < byteSize longer := by
  obtain ⟨rest, rfl⟩ := List.prefix_of_prefix_length_le hword hlonger (Nat.le_of_lt hlt)
  have hrest : byteSize rest ≠ 0 := by
    rw [ne_eq, byteSize_eq_zero_iff]
    intro hnil
    simp [hnil] at hlt
  rw [byteSize_append]
  omega

/-- The characters that make up the first `size` bytes of the text, if a character ends there. -/
def prefixOfSize? : Nat → List Char → Option (List Char)
  | 0, _ => some []
  | _ + 1, [] => none
  | size + 1, c :: text =>
    if c.utf8Size ≤ size + 1 then (prefixOfSize? (size + 1 - c.utf8Size) text).map (c :: ·)
    else none

/-- **Cutting at a number of bytes** succeeds just where a prefix has that size. -/
theorem prefixOfSize?_eq_some_iff {size : Nat} {text word : List Char} :
    prefixOfSize? size text = some word ↔ word <+: text ∧ byteSize word = size := by
  fun_induction prefixOfSize? size text generalizing word with
  | case1 text =>
    constructor
    · intro h
      obtain rfl := Option.some.inj h
      -- nothing is cut off
      simp
    · intro ⟨_, hsize⟩
      rw [byteSize_eq_zero_iff.1 hsize]
  | case2 size =>
    constructor
    · simp
    · intro ⟨hstart, hsize⟩
      -- no characters are left to make up the bytes
      simp [List.prefix_nil.1 hstart] at hsize
  | case3 size c text hle ih =>
    rw [Option.map_eq_some_iff]
    constructor
    · -- the first character is part of the cut, and the rest of the cut is found behind it
      intro ⟨front, hfront, hword⟩
      obtain rfl := hword
      obtain ⟨hstart, hsize⟩ := ih.1 hfront
      refine ⟨(List.prefix_cons_inj c).2 hstart, ?_⟩
      rw [byteSize_cons, hsize]
      omega
    · intro ⟨hstart, hsize⟩
      cases word with
      | nil => simp at hsize
      | cons d word =>
        obtain ⟨rfl, hword⟩ := List.cons_prefix_cons.1 hstart
        rw [byteSize_cons] at hsize
        exact ⟨word, ih.2 ⟨hword, by omega⟩, rfl⟩
  | case4 size c text hlt =>
    constructor
    · simp
    · intro ⟨hstart, hsize⟩
      -- the first character alone takes too many bytes
      cases word with
      | nil => simp at hsize
      | cons d word =>
        obtain ⟨rfl, -⟩ := List.cons_prefix_cons.1 hstart
        rw [byteSize_cons] at hsize
        omega

/-! ### The bytes themselves -/

/-- The UTF-8 form of the characters. -/
def utf8 (text : List Char) : List UInt8 :=
  text.flatMap String.utf8EncodeChar

/-- These are the bytes that the string consists of. -/
theorem toUTF8_ofList (text : List Char) :
    (String.ofList text).toUTF8 = (utf8 text).toByteArray := rfl

theorem utf8_append (front back : List Char) : utf8 (front ++ back) = utf8 front ++ utf8 back :=
  List.flatMap_append

/-- **Different texts have different bytes.** -/
theorem utf8_injective : Function.Injective utf8 := by
  intro text other h
  have hbytes : (String.ofList text).toByteArray = (String.ofList other).toByteArray :=
    congrArg List.toByteArray h
  exact String.ofList_injective (String.toByteArray_inj.1 hbytes)

end Formula.Text
