import SpanTree.Pattern.Class

/-!
# Unicode properties by name

A property is named by its general category, by a script or by a yes-or-no property, without regard
to case, spaces, `-` and `_`, and with or without `is` in front. Ages and the places where a break
may be are named by their kind and a value. Paths are ASCII, so a property stands for its ASCII
members.
-/

namespace SpanTree.CharClass

/-- A name as it is compared: lower case, without separators and without a leading `is`. -/
def looseName (cs : List Char) : String :=
  let plain := (cs.filter fun c => !(c = ' ' || c = '-' || c = '_')).map Char.toLower
  match plain with
  | ['i', 's', 'c'] => "isc"
  | 'i' :: 's' :: rest => if rest.isEmpty then "is" else String.ofList rest
  | _ => String.ofList plain

def dashes : CharClass := single '-'

def opening : CharClass := ofChars ['(', '[', '\x7b']

def closing : CharClass := ofChars [')', ']', '\x7d']

def otherPunctuation : CharClass :=
  ofChars ['!', '"', '#', '%', '&', '\'', '*', ',', '.', '/', ':', ';', '?', '@', '\\']

def punctuation : CharClass :=
  either (either (single '_') dashes) (either (either opening closing) otherPunctuation)

def mathSymbol : CharClass := ofChars ['+', '<', '=', '>', '|', '~']

def modifierSymbol : CharClass := ofChars ['^', '\x60']

def symbol : CharClass := either mathSymbol (either (single '$') modifierSymbol)

def control : CharClass :=
  ofRanges [(Char.ofNat 0, Char.ofNat 0x1F), (Char.ofNat 0x7F, Char.ofNat 0x7F)]

/-- General categories by their short and long names. -/
def category? (name : String) : Option CharClass :=
  match name with
  | "any" => some any
  | "ascii" => some ascii
  | "assigned" => some any
  | "c" | "other" | "cc" | "control" | "cntrl" => some control
  | "cf" | "format" | "cn" | "unassigned" | "co" | "privateuse" | "cs" | "surrogate" => some none
  | "l" | "letter" | "lc" | "casedletter" => some letter
  | "ll" | "lowercaseletter" => some lower
  | "lu" | "uppercaseletter" => some upper
  | "lm" | "modifierletter" | "lo" | "otherletter" | "lt" | "titlecaseletter" => some none
  | "m" | "mark" | "combiningmark" | "mc" | "spacingmark" | "me" | "enclosingmark" | "mn"
  | "nonspacingmark" => some none
  | "n" | "number" | "nd" | "decimalnumber" | "digit" => some digit
  | "nl" | "letternumber" | "no" | "othernumber" => some none
  | "p" | "punctuation" | "punct" => some punctuation
  | "pc" | "connectorpunctuation" => some (single '_')
  | "pd" | "dashpunctuation" => some dashes
  | "ps" | "openpunctuation" => some opening
  | "pe" | "closepunctuation" => some closing
  | "pi" | "initialpunctuation" | "pf" | "finalpunctuation" => some none
  | "po" | "otherpunctuation" => some otherPunctuation
  | "s" | "symbol" => some symbol
  | "sm" | "mathsymbol" => some mathSymbol
  | "sc" | "currencysymbol" => some (single '$')
  | "sk" | "modifiersymbol" => some modifierSymbol
  | "so" | "othersymbol" => some none
  | "z" | "separator" | "zs" | "spaceseparator" => some (single ' ')
  | "zl" | "lineseparator" | "zp" | "paragraphseparator" => some none
  | _ => Option.none

/-- The scripts without an ASCII member. -/
def otherScripts : List String :=
  ["adlm", "adlam", "aghb", "caucasianalbanian", "ahom", "arab", "arabic", "armi",
   "imperialaramaic", "armn", "armenian", "avst", "avestan", "bali", "balinese", "bamu", "bamum",
   "bass", "bassavah", "batk", "batak", "beng", "bengali", "bhks", "bhaiksuki", "bopo", "bopomofo",
   "brah", "brahmi", "brai", "braille", "bugi", "buginese", "buhd", "buhid", "cakm", "chakma",
   "cans", "canadianaboriginal", "cari", "carian", "cham", "cher", "cherokee", "chrs",
   "chorasmian", "copt", "coptic", "qaac", "cpmn", "cyprominoan", "cprt", "cypriot", "cyrl",
   "cyrillic", "deva", "devanagari", "diak", "divesakuru", "dogr", "dogra", "dsrt", "deseret",
   "dupl", "duployan", "egyp", "egyptianhieroglyphs", "elba", "elbasan", "elym", "elymaic", "ethi",
   "ethiopic", "geor", "georgian", "glag", "glagolitic", "gong", "gunjalagondi", "gonm",
   "masaramgondi", "goth", "gothic", "gran", "grantha", "grek", "greek", "gujr", "gujarati",
   "guru", "gurmukhi", "hang", "hangul", "hani", "han", "hano", "hanunoo", "hatr", "hatran",
   "hebr", "hebrew", "hira", "hiragana", "hluw", "anatolianhieroglyphs", "hmng", "pahawhhmong",
   "hmnp", "nyiakengpuachuehmong", "hung", "oldhungarian", "ital", "olditalic", "java", "javanese",
   "kali", "kayahli", "kana", "katakana", "kawi", "khar", "kharoshthi", "khmr", "khmer", "khoj",
   "khojki", "kits", "khitansmallscript", "knda", "kannada", "kthi", "kaithi", "lana", "taitham",
   "laoo", "lao", "lepc", "lepcha", "limb", "limbu", "lina", "lineara", "linb", "linearb", "lisu",
   "lyci", "lycian", "lydi", "lydian", "mahj", "mahajani", "maka", "makasar", "mand", "mandaic",
   "mani", "manichaean", "marc", "marchen", "medf", "medefaidrin", "mend", "mendekikakui", "merc",
   "meroiticcursive", "mero", "meroitichieroglyphs", "mlym", "malayalam", "modi", "mong",
   "mongolian", "mroo", "mro", "mtei", "meeteimayek", "mult", "multani", "mymr", "myanmar", "nagm",
   "nagmundari", "nand", "nandinagari", "narb", "oldnortharabian", "nbat", "nabataean", "newa",
   "nkoo", "nko", "nshu", "nushu", "ogam", "ogham", "olck", "olchiki", "orkh", "oldturkic", "orya",
   "oriya", "osge", "osage", "osma", "osmanya", "ougr", "olduyghur", "palm", "palmyrene", "pauc",
   "paucinhau", "perm", "oldpermic", "phag", "phagspa", "phli", "inscriptionalpahlavi", "phlp",
   "psalterpahlavi", "phnx", "phoenician", "plrd", "miao", "prti", "inscriptionalparthian", "rjng",
   "rejang", "rohg", "hanifirohingya", "runr", "runic", "samr", "samaritan", "sarb",
   "oldsoutharabian", "saur", "saurashtra", "sgnw", "signwriting", "shaw", "shavian", "shrd",
   "sharada", "sidd", "siddham", "sind", "khudawadi", "sinh", "sinhala", "sogd", "sogdian", "sogo",
   "oldsogdian", "sora", "sorasompeng", "soyo", "soyombo", "sund", "sundanese", "sylo",
   "sylotinagri", "syrc", "syriac", "tagb", "tagbanwa", "takr", "takri", "tale", "taile", "talu",
   "newtailue", "taml", "tamil", "tang", "tangut", "tavt", "taiviet", "telu", "telugu", "tfng",
   "tifinagh", "tglg", "tagalog", "thaa", "thaana", "thai", "tibt", "tibetan", "tirh", "tirhuta",
   "tnsa", "tangsa", "toto", "ugar", "ugaritic", "vaii", "vai", "vith", "vithkuqi", "wara",
   "warangciti", "wcho", "wancho", "xpeo", "oldpersian", "xsux", "cuneiform", "yezi", "yezidi",
   "yiii", "yi", "zanb", "zanabazarsquare", "zinh", "inherited", "qaai"]

/-- All ASCII letters are Latin, the rest of ASCII is common to all scripts. -/
def script? (name : String) : Option CharClass :=
  match name with
  | "latin" | "latn" => some letter
  | "common" | "zyyy" => some (butNot ascii letter)
  | _ => if otherScripts.contains name then some none else Option.none

/-- Yes-or-no properties. -/
def flag? (name : String) : Option CharClass :=
  match name with
  | "alphabetic" | "alpha" | "cased" | "idstart" | "ids" | "xidstart" | "xids"
  | "changeswhencasemapped" | "cwcm" => some letter
  | "lowercase" | "lower" | "changeswhenuppercased" | "cwu" | "changeswhentitlecased" | "cwt" =>
    some lower
  | "uppercase" | "upper" | "changeswhenlowercased" | "cwl" | "changeswhencasefolded" | "cwcf" =>
    some upper
  | "whitespace" | "wspace" | "space" | "patternwhitespace" | "patws" => some space
  | "asciihexdigit" | "ahex" | "hexdigit" | "hex" =>
    some (ofRanges [('0', '9'), ('A', 'F'), ('a', 'f')])
  | "idcontinue" | "idc" | "xidcontinue" | "xidc" => some word
  | "dash" | "hyphen" => some dashes
  | "math" => some (either mathSymbol (single '^'))
  | "diacritic" | "dia" => some modifierSymbol
  | "caseignorable" | "ci" => some (either modifierSymbol (ofChars ['\'', '.', ':']))
  | "quotationmark" | "qmark" => some (ofChars ['"', '\''])
  | "sentenceterminal" | "sterm" => some (ofChars ['!', '.', '?'])
  | "terminalpunctuation" | "term" => some (ofChars ['!', ',', '.', ':', ';', '?'])
  | "patternsyntax" | "patsyn" => some (butNot (either punctuation symbol) (single '_'))
  | "softdotted" | "sd" => some (ofChars ['i', 'j'])
  | "emoji" | "emojicomponent" | "ecomp" => some (either digit (ofChars ['#', '*']))
  | "graphemebase" | "grbase" => some (range ' ' '~')
  | "bidicontrol" | "bidic" | "defaultignorablecodepoint" | "di" | "deprecated" | "dep"
  | "emojimodifier" | "emod" | "emojimodifierbase" | "ebase" | "emojipresentation" | "epres"
  | "extendedpictographic" | "extpict" | "extender" | "ext" | "graphemeextend" | "grext"
  | "ideographic" | "ideo" | "idsbinaryoperator" | "idsb" | "idstrinaryoperator" | "idst"
  | "joincontrol" | "joinc" | "logicalorderexception" | "loe" | "noncharactercodepoint" | "nchar"
  | "prependedconcatenationmark" | "pcm" | "radical" | "regionalindicator" | "ri"
  | "unifiedideograph" | "uideo" | "variationselector" | "vs" => some none
  | _ => Option.none

/-- The places where a grapheme may end. -/
def graphemeBreak? (name : String) : Option CharClass :=
  match name with
  | "control" | "cn" => some (butNot control (ofChars ['\n', '\r']))
  | "cr" => some (single '\r')
  | "lf" => some (single '\n')
  | "extend" | "ex" | "l" | "lv" | "lvt" | "prepend" | "pp" | "regionalindicator" | "ri"
  | "spacingmark" | "sm" | "t" | "v" | "zwj" => some none
  | _ => Option.none

/-- The places where a word may end. -/
def wordBreak? (name : String) : Option CharClass :=
  match name with
  | "aletter" | "le" => some letter
  | "cr" => some (single '\r')
  | "lf" => some (single '\n')
  | "newline" | "nl" => some (range (Char.ofNat 0x0B) (Char.ofNat 0x0C))
  | "doublequote" | "dq" => some (single '"')
  | "singlequote" | "sq" => some (single '\'')
  | "extendnumlet" => some (single '_')
  | "midletter" | "ml" => some (single ':')
  | "midnum" | "mn" => some (ofChars [',', ';'])
  | "midnumlet" | "mb" => some (single '.')
  | "numeric" | "nu" => some digit
  | "wsegspace" => some (single ' ')
  | "extend" | "format" | "fo" | "hebrewletter" | "hl" | "katakana" | "ka" | "regionalindicator"
  | "ri" | "zwj" => some none
  | _ => Option.none

/-- The places where a sentence may end. -/
def sentenceBreak? (name : String) : Option CharClass :=
  match name with
  | "aterm" | "at" => some (single '.')
  | "close" | "cl" => some (either (either opening closing) (ofChars ['"', '\'']))
  | "cr" => some (single '\r')
  | "lf" => some (single '\n')
  | "lower" | "lo" => some lower
  | "upper" | "up" => some upper
  | "numeric" | "nu" => some digit
  | "scontinue" | "sc" => some (ofChars [',', '-', ':'])
  | "sp" => some (butNot space (ofChars ['\n', '\r']))
  | "sterm" | "st" => some (ofChars ['!', '?'])
  | "extend" | "ex" | "format" | "fo" | "oletter" | "le" | "sep" | "se" => some none
  | _ => Option.none

/-- The versions of Unicode. The age of a version is what was there by then: all of ASCII. -/
def versions : List String :=
  ["1.1", "2.0", "2.1", "3.0", "3.1", "3.2", "4.0", "4.1", "5.0", "5.1", "5.2", "6.0", "6.1", "6.2",
   "6.3", "7.0", "8.0", "9.0", "10.0", "11.0", "12.0", "12.1", "13.0", "14.0", "15.0"]

def age? (name : String) : Option CharClass :=
  let short := fun v : String => "v" ++ String.ofList (v.toList.filter (· != '.'))
  if versions.any fun v => v = name || short v = name then some ascii else Option.none

/-- The class of a property that is given by its name alone. -/
def property? (name : List Char) : Option CharClass :=
  let n := looseName name
  (flag? n).orElse fun _ => (category? n).orElse fun _ => script? n

/-- The class of a property that is given by its kind and a value. -/
def propertyValue? (kind value : List Char) : Option CharClass :=
  match looseName kind with
  | "gc" | "generalcategory" => category? (looseName value)
  | "sc" | "script" | "scx" | "scriptextensions" => script? (looseName value)
  | "age" => age? (looseName value)
  | "gcb" | "graphemeclusterbreak" => graphemeBreak? (looseName value)
  | "wb" | "wordbreak" => wordBreak? (looseName value)
  | "sb" | "sentencebreak" => sentenceBreak? (looseName value)
  | _ => Option.none

end SpanTree.CharClass
