namespace Brine.Regex

/-- Why a text is no pattern. -/
inductive Error where
  | groupUnopened
  | groupUnclosed
  | groupNameEmpty
  | groupNameInvalid
  | groupNameUnclosed
  | groupNameRepeated (name : String)
  | lookAround
  | flagUnknown (flag : Char)
  | flagRepeated
  | flagsUnclosed
  | negationRepeated
  | negationDangling
  | classUnclosed
  | classRangeReversed
  | classRangeEnd
  | classMember
  | repetitionMissing
  | repetitionUnclosed
  | repetitionCount
  | repetitionReversed
  | escapeUnfinished
  | escapeUnknown (escaped : Char)
  | backReference
  | propertyUnknown
  | hexDigits
  | boundaryName
  | beyondAscii
  /-- The pattern is nested too deep, or what it is compiled to is too large. -/
  | beyondLimits
deriving DecidableEq

def Error.message : Error → String
  | .groupUnopened => "unopened group"
  | .groupUnclosed => "unclosed group"
  | .groupNameEmpty => "empty group name"
  | .groupNameInvalid => "invalid character in group name"
  | .groupNameUnclosed => "unclosed group name"
  | .groupNameRepeated name => "repeated group name '" ++ name ++ "'"
  | .lookAround => "look-around is not supported"
  | .flagUnknown flag => "unknown flag '" ++ flag.toString ++ "'"
  | .flagRepeated => "repeated flag"
  | .flagsUnclosed => "unclosed flags"
  | .negationRepeated => "repeated flag negation"
  | .negationDangling => "flag negation without a flag"
  | .classUnclosed => "unclosed character class"
  | .classRangeReversed => "the start of a class range is above its end"
  | .classRangeEnd => "a class range needs two characters"
  | .classMember => "no member of a character class"
  | .repetitionMissing => "repetition of nothing"
  | .repetitionUnclosed => "unclosed counted repetition"
  | .repetitionCount => "invalid repetition count"
  | .repetitionReversed => "the least count of a repetition is above its greatest"
  | .escapeUnfinished => "unfinished escape"
  | .escapeUnknown escaped => "unknown escape '\\" ++ escaped.toString ++ "'"
  | .backReference => "back-references are not supported"
  | .propertyUnknown => "unknown property of characters"
  | .hexDigits => "invalid hexadecimal escape"
  | .boundaryName => "invalid word boundary name"
  | .beyondAscii => "more than ASCII without Unicode mode"
  | .beyondLimits => "the limits on nesting and size are exceeded"

end Brine.Regex
