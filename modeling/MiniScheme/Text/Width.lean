import MiniScheme.Text.Emoji
import MiniScheme.Text.Mark

/-!
# Display width of text

The number of columns a text takes on a terminal. Text of ASCII characters takes one column a
byte. In other text ideographs and emoji take two columns, and marks and ignorable characters
none. Some sequences of characters are shown as one: they are found from right to left, each
character looking at what the text after it begins with.
-/

namespace MiniScheme.Text

/-! ### Single characters -/

/-- Characters that take two columns: ideographs, syllables, full-width forms and emoji. -/
def wideRanges : List (Nat × Nat) :=
  [(0x1100, 0x115F), (0x231A, 0x231B), (0x2329, 0x232A), (0x23E9, 0x23EC), (0x23F0, 0x23F0),
    (0x23F3, 0x23F3), (0x25FD, 0x25FE), (0x2614, 0x2615), (0x2630, 0x2637), (0x2648, 0x2653),
    (0x267F, 0x267F), (0x268A, 0x268F), (0x2693, 0x2693), (0x26A1, 0x26A1), (0x26AA, 0x26AB),
    (0x26BD, 0x26BE), (0x26C4, 0x26C5), (0x26CE, 0x26CE), (0x26D4, 0x26D4), (0x26EA, 0x26EA),
    (0x26F2, 0x26F3), (0x26F5, 0x26F5), (0x26FA, 0x26FA), (0x26FD, 0x26FD), (0x2705, 0x2705),
    (0x270A, 0x270B), (0x2728, 0x2728), (0x274C, 0x274C), (0x274E, 0x274E), (0x2753, 0x2755),
    (0x2757, 0x2757), (0x2795, 0x2797), (0x27B0, 0x27B0), (0x27BF, 0x27BF), (0x2B1B, 0x2B1C),
    (0x2B50, 0x2B50), (0x2B55, 0x2B55), (0x2E80, 0x2E99), (0x2E9B, 0x2EF3), (0x2F00, 0x2FD5),
    (0x2FF0, 0x303E), (0x3041, 0x3096), (0x3099, 0x30FF), (0x3105, 0x312F), (0x3131, 0x318E),
    (0x3190, 0x31E5), (0x31EF, 0x321E), (0x3220, 0x3247), (0x3250, 0xA48C), (0xA490, 0xA4C6),
    (0xA960, 0xA97C), (0xAC00, 0xD7A3), (0xF900, 0xFAFF), (0xFE10, 0xFE19), (0xFE30, 0xFE52),
    (0xFE54, 0xFE66), (0xFE68, 0xFE6B), (0xFF01, 0xFF60), (0xFFE0, 0xFFE6), (0x16FE0, 0x16FE4),
    (0x16FF0, 0x16FF6), (0x17000, 0x18CD5), (0x18CFF, 0x18D1E), (0x18D80, 0x18DF2),
    (0x1AFF0, 0x1AFF3), (0x1AFF5, 0x1AFFB), (0x1AFFD, 0x1AFFE), (0x1B000, 0x1B122),
    (0x1B132, 0x1B132), (0x1B150, 0x1B152), (0x1B155, 0x1B155), (0x1B164, 0x1B167),
    (0x1B170, 0x1B2FB), (0x1D300, 0x1D356), (0x1D360, 0x1D376), (0x1F004, 0x1F004),
    (0x1F0CF, 0x1F0CF), (0x1F18E, 0x1F18E), (0x1F191, 0x1F19A), (0x1F200, 0x1F202),
    (0x1F210, 0x1F23B), (0x1F240, 0x1F248), (0x1F250, 0x1F251), (0x1F260, 0x1F265),
    (0x1F300, 0x1F320), (0x1F32D, 0x1F335), (0x1F337, 0x1F37C), (0x1F37E, 0x1F393),
    (0x1F3A0, 0x1F3CA), (0x1F3CF, 0x1F3D3), (0x1F3E0, 0x1F3F0), (0x1F3F4, 0x1F3F4),
    (0x1F3F8, 0x1F43E), (0x1F440, 0x1F440), (0x1F442, 0x1F4FC), (0x1F4FF, 0x1F53D),
    (0x1F54B, 0x1F54E), (0x1F550, 0x1F567), (0x1F57A, 0x1F57A), (0x1F595, 0x1F596),
    (0x1F5A4, 0x1F5A4), (0x1F5FB, 0x1F64F), (0x1F680, 0x1F6C5), (0x1F6CC, 0x1F6CC),
    (0x1F6D0, 0x1F6D2), (0x1F6D5, 0x1F6D8), (0x1F6DC, 0x1F6DF), (0x1F6EB, 0x1F6EC),
    (0x1F6F4, 0x1F6FC), (0x1F7E0, 0x1F7EB), (0x1F7F0, 0x1F7F0), (0x1F90C, 0x1F93A),
    (0x1F93C, 0x1F945), (0x1F947, 0x1F9FF), (0x1FA70, 0x1FA7C), (0x1FA80, 0x1FA8A),
    (0x1FA8E, 0x1FAC6), (0x1FAC8, 0x1FAC8), (0x1FACD, 0x1FADC), (0x1FADF, 0x1FAEA),
    (0x1FAEF, 0x1FAF8), (0x20000, 0x2FFFD), (0x30000, 0x3FFFD)]

/-- Characters that are not shown at all. -/
def ignorableRanges : List (Nat × Nat) :=
  [(0x00AD, 0x00AD), (0x034F, 0x034F), (0x061C, 0x061C), (0x115F, 0x1160), (0x17B4, 0x17B5),
    (0x180B, 0x180F), (0x200B, 0x200F), (0x202A, 0x202E), (0x2060, 0x206F), (0x3164, 0x3164),
    (0xFE00, 0xFE0F), (0xFEFF, 0xFEFF), (0xFFA0, 0xFFA0), (0xFFF0, 0xFFF8), (0x1BCA0, 0x1BCA3),
    (0x1D173, 0x1D17A), (0xE0000, 0xE0FFF)]

/-- Vowels and final consonants of Korean syllables, which share the columns of the first
consonant. -/
def jamoRanges : List (Nat × Nat) :=
  [(0x1160, 0x11FF), (0xD7B0, 0xD7C6), (0xD7CB, 0xD7FB)]

/-- Signs that enclose or cover the characters after them. -/
def coveringSigns : List Nat :=
  [0x0605, 0x070F, 0x0890, 0x0891, 0x08E2, 0xA8FA]

/-- Whether a character takes no column. -/
def isZeroWidth (c : Char) : Bool :=
  isMark c || inRanges ignorableRanges c.toNat || inRanges jamoRanges c.toNat ||
    coveringSigns.contains c.toNat

/-- Columns taken by one character on its own in a text that is not all ASCII. Control characters
count as one column. -/
def charWidth (c : Char) : Nat :=
  if c.toNat ≤ 0xA0 ∨ c.toNat = 0x2D7F then 1
  else if c.toNat = 0x115F ∨ c.toNat = 0x17A4 then 2
  else if c.toNat = 0x17D8 then 3
  else if isZeroWidth c then 0
  else if inRanges wideRanges c.toNat then 2
  else 1

/-! ### Sequences -/

/-- Letters that may merge with a letter before them. -/
inductive Ligature where
  | arabicAlef
  | bugineseYa
  | bugineseYaAfterSign
  | hebrewLamed
  | khmerSubscript
  | lisuTone
  | orkhonI
  | tifinagh
  | tifinaghAfterSign
  deriving DecidableEq

/-- What the beginning of a text offers to a character put in front of it. -/
inductive Opening where
  | plain
  | lineFeed
  /-- A selector of the text style. -/
  | textStyle
  /-- A selector of the emoji style; after it may come a joiner with an emoji. -/
  | emojiStyle (joined : Bool)
  | emoji
  /-- A joiner with an emoji after it. -/
  | joinedEmoji
  | skinTone
  /-- A letter of a flag, or several of them. -/
  | flag (several : Bool)
  /-- A selector of the wide form of a quotation mark. -/
  | wideForm
  /-- A Kirat Rai vowel, written once or twice. -/
  | kiratRai (twice : Bool)
  /-- A letter, with a joiner before it or not. -/
  | letter (ligature : Ligature) (joined : Bool)
  deriving DecidableEq

def joiner : Char := '\u200D'

def textSelector : Char := '\uFE0E'

def emojiSelector : Char := '\uFE0F'

def wideFormSelector : Char := '\uFE01'

/-- Quotation marks that have a wide form. -/
def quotationMarks : List Char :=
  ['\u2018', '\u2019', '\u201C', '\u201D']

/-- Khmer letters that are written below the letter before them after the subscript sign. -/
def khmerSubscriptRanges : List (Nat × Nat) :=
  [(0x1780, 0x1782), (0x1784, 0x1787), (0x1789, 0x178C), (0x178E, 0x1793), (0x1795, 0x1798),
    (0x179B, 0x179D), (0x17A0, 0x17A0), (0x17A2, 0x17A2), (0x17A7, 0x17A7), (0x17AB, 0x17AC),
    (0x17AF, 0x17AF)]

/-- The letters alef of the Arabic script. -/
def arabicAlefRanges : List (Nat × Nat) :=
  [(0x0622, 0x0623), (0x0625, 0x0625), (0x0627, 0x0627), (0x0671, 0x0673), (0x0675, 0x0675),
    (0x0773, 0x0774), (0x0870, 0x0882)]

/-- The letters lam of the Arabic script. -/
def arabicLamRanges : List (Nat × Nat) :=
  [(0x0644, 0x0644), (0x06B5, 0x06B8), (0x076A, 0x076A), (0x08A6, 0x08A6), (0x08C7, 0x08C7)]

/-- Consonants of the Tifinagh script. -/
def tifinaghRanges : List (Nat × Nat) :=
  [(0x2D31, 0x2D65), (0x2D6F, 0x2D6F)]

/-- Ignorable marks, which never separate the letters of a ligature. -/
def transparentRanges : List (Nat × Nat) :=
  [(0x034F, 0x034F), (0x17B4, 0x17B5), (0x180B, 0x180D), (0x180F, 0x180F), (0x200D, 0x200D),
    (0xFE00, 0xFE0F), (0xE0100, 0xE01EF)]

/-- The ligature that may end in a letter. -/
def ligature? (n : Nat) : Option Ligature :=
  if inRanges arabicAlefRanges n then some .arabicAlef
  else if n = 0x1A10 then some .bugineseYa
  else if n = 0x05DC then some .hebrewLamed
  else if inRanges khmerSubscriptRanges n then some .khmerSubscript
  else if n = 0xA4FC ∨ n = 0xA4FD then some .lisuTone
  else if n = 0x10C03 then some .orkhonI
  else if inRanges tifinaghRanges n then some .tifinagh
  else none

/-- What a character on its own offers to the one before it. -/
def openingOf (c : Char) : Opening :=
  if c = '\n' then .lineFeed
  else if c = textSelector then .textStyle
  else if c = emojiSelector then .emojiStyle false
  else if c = wideFormSelector then .wideForm
  else if c.toNat = 0x16D67 then .kiratRai false
  else if c.toNat = 0x16D68 then .kiratRai true
  else if isFlagLetter c then .flag false
  else if isSkinTone c then .skinTone
  else if isEmoji c then .emoji
  else
    match ligature? c.toNat with
    | some l => .letter l false
    | none => .plain

/-- Puts a character in front of a letter with which it may merge. -/
def mergeLetter (c : Char) (columns : Nat) (l : Ligature) (joined : Bool) :
    Option (Nat × Opening) :=
  if inRanges transparentRanges c.toNat then
    some (columns, .letter l (joined || c = joiner))
  else
    match l with
    | .arabicAlef =>
      if inRanges arabicLamRanges c.toNat then some (columns, .plain)
      else if isMark c && c ≠ '\u200C' then some (columns, .letter l joined)
      else none
    | .bugineseYa =>
      if joined && c.toNat = 0x1A17 then some (columns, .letter .bugineseYaAfterSign joined)
      else none
    | .bugineseYaAfterSign => if c.toNat = 0x1A15 then some (columns, .plain) else none
    | .hebrewLamed => if joined && c.toNat = 0x05D0 then some (columns, .plain) else none
    | .khmerSubscript => if c.toNat = 0x17D2 then some (columns - 1, .plain) else none
    | .lisuTone =>
      if 0xA4F8 ≤ c.toNat && c.toNat ≤ 0xA4FB then some (columns, .plain) else none
    | .orkhonI => if joined && c.toNat = 0x10C32 then some (columns, .plain) else none
    | .tifinagh =>
      if c.toNat = 0x2D7F then some (columns + 1, .letter .tifinaghAfterSign joined)
      else if joined && inRanges tifinaghRanges c.toNat then some (columns, .plain)
      else none
    | .tifinaghAfterSign =>
      if inRanges tifinaghRanges c.toNat then some (columns - 1, .plain) else none

/-- Puts a character in front of a Kirat Rai vowel. One sign stands for the vowel written twice,
and other signs for the vowel with the sign before it. -/
def mergeKiratRai (c : Char) (columns : Nat) (twice : Bool) : Option (Nat × Opening) :=
  if c.toNat = 0x16D63 then some (columns, .plain)
  else if twice then none
  else if c.toNat = 0x16D67 then some (columns, .kiratRai true)
  else if c.toNat = 0x16D68 then some (columns + 1, .kiratRai false)
  else if c.toNat = 0x16D69 then some (columns, .plain)
  else none

/-- Puts a character in front of a joiner with an emoji after it. -/
def mergeJoined (c : Char) (columns : Nat) : Option (Nat × Opening) :=
  if c = emojiSelector then some (columns, .emojiStyle true)
  else if isSkinTone c then some (columns, .skinTone)
  else if isEmoji c then some (columns, .emoji)
  else none

/-- Puts a character in front of a text with which it may merge. Gives the columns of both and
what they offer in turn, or nothing if the character stands for itself. -/
def merge (c : Char) (columns : Nat) : Opening → Option (Nat × Opening)
  | .plain => none
  | .lineFeed => if c = '\r' then some (columns, .plain) else none
  | .textStyle => if takesTextStyle c then some (columns + 1, .plain) else none
  | .emojiStyle joined =>
    if takesEmojiStyle c then some (if joined then columns else columns + 2, .emoji)
    else if joined then mergeJoined c columns
    else none
  | .emoji => if c = joiner then some (columns, .joinedEmoji) else none
  | .joinedEmoji => mergeJoined c columns
  | .skinTone =>
    if c = joiner then some (columns, .joinedEmoji)
    else if takesSkinTone c then some (columns, .emoji)
    else none
  | .flag several =>
    if isFlagLetter c then some (columns + 1, .flag true)
    else if several && c = joiner then some (columns, .joinedEmoji)
    else none
  | .wideForm => if quotationMarks.contains c then some (columns + 2, .plain) else none
  | .kiratRai twice => mergeKiratRai c columns twice
  | .letter l joined => mergeLetter c columns l joined

/-- Columns taken by characters of a text that is not all ASCII, and what they offer to a
character in front of them. -/
def scanWidth : List Char → Nat × Opening
  | [] => (0, .plain)
  | c :: cs =>
    let rest := scanWidth cs
    (merge c rest.1 rest.2).getD (rest.1 + charWidth c, openingOf c)

/-- Columns taken by a text. -/
def width (s : String) : Nat :=
  let cs := s.toList
  if cs.all (·.toNat < 128) then cs.length else (scanWidth cs).1

end MiniScheme.Text
