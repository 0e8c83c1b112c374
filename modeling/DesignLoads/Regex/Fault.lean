/-! What can be wrong with the text of a regular expression. -/

namespace DesignLoads.Regex

inductive Fault where
  | groupUnclosed
  | groupUnopened
  | groupName
  | lookAround
  | flag
  | classUnclosed
  | classItem
  | classRange
  | nothingToRepeat
  | repetitionUnclosed
  | repetitionCount
  | escapeEnd
  | escapeUnknown
  | backreference
  | codePoint
  | wordBoundary
  | notText
  | tooDeep
  | tooLarge
deriving DecidableEq

def Fault.message : Fault → String
  | groupUnclosed => "a group is not closed"
  | groupUnopened => "a closing parenthesis has no opening one"
  | groupName => "a group has no valid name of its own"
  | lookAround => "looking ahead or behind is not possible"
  | flag => "a flag is unknown, repeated or missing"
  | classUnclosed => "a character class is not closed"
  | classItem => "a character class holds something else than characters"
  | classRange => "a range of characters ends before it starts"
  | nothingToRepeat => "there is nothing to repeat"
  | repetitionUnclosed => "a number of repetitions is not closed"
  | repetitionCount => "a number of repetitions is missing, too great or less than the least"
  | escapeEnd => "the text ends within an escape sequence"
  | escapeUnknown => "an escape sequence is unknown"
  | backreference => "referring back to a group is not possible"
  | codePoint => "a code point is not written in hexadecimal digits or does not exist"
  | wordBoundary => "a kind of word boundary is unknown"
  | notText => "bytes beyond ASCII cannot be told apart"
  | tooDeep => "the expression is nested too deeply"
  | tooLarge => "the expression is too large"

end DesignLoads.Regex
