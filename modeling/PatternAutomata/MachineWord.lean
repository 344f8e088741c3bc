/-!
# Machine words

Numbers that are given in arguments or drawn at random have 64 binary digits, and so have the places
in memory. One buffer takes up less than half of these places.
-/
namespace PatternAutomata

/-- How many numbers a machine word can hold; it is greater than each of them. -/
def wordBound : Nat := 1 <<< 64

/-- The greatest number of bytes that a buffer can be given. -/
def bufferLimit : Nat := (1 <<< 63) - 1

end PatternAutomata
