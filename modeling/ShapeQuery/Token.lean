/-!
# Tokens of the query language

Every fixed piece of text that a rendered query can hold: the comparison values
that are words, the delimiters of list operands, the separators, the clause
keywords and the sort directions.  All other modules take their text from here.
-/

namespace ShapeQuery
namespace Token

/-- Opens a list of which every element must be present. -/
def allOfOpen : String := "["

/-- Closes a list of which every element must be present. -/
def allOfClose : String := "]"

/-- Opens a list of which one element is enough. -/
def anyOfOpen : String := "("

/-- Closes a list of which one element is enough. -/
def anyOfClose : String := ")"

/-- Opens a list that must be matched with nothing left over. -/
def exactlyOpen : String := "\x7b"

/-- Closes a list that must be matched with nothing left over. -/
def exactlyClose : String := "\x7d"

/-- Opens a list of which some element must be absent. -/
def notAllOfOpen : String := "!["

/-- Opens a list of which every element must be absent. -/
def notAnyOfOpen : String := "!("

/-- Ends every clause. -/
def clauseTerminator : String := ";"

/-- Stands between two fields of a field list. -/
def fieldSeparator : String := ", "

/-- Stands between two values of a list operand. -/
def valueSeparator : String := ", "

/-- Stands between the segments of a field path. -/
def pathSeparator : String := "."

/-- Selects every field. -/
def wildcard : String := "*"

def negation : String := "!"

def trueWord : String := "true"

def falseWord : String := "false"

def nullWord : String := "null"

def search : String := "search"

def fields : String := "fields"

def exclude : String := "exclude"

def filter : String := "where"

def offset : String := "offset"

def limit : String := "limit"

def sort : String := "sort"

def ascending : String := "asc"

def descending : String := "desc"

end Token
end ShapeQuery
