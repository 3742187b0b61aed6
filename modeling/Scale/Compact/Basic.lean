import Scale.Compact.Classic
import Scale.Compact.Jam

namespace Scale

namespace Scheme

/-- Writes digits in the shortest form of the scheme. -/
def put : Scheme → Digits → Writer Unit
  | classic => Classic.put
  | jam => Jam.put

/-- Reads the digits of one number, which has to be in its shortest form. -/
def take : Scheme → Reader Digits
  | classic => Classic.take
  | jam => Jam.take

end Scheme

/-- Writes digits with the scheme of the sink. -/
def Writer.putDigits (digits : Digits) : Writer Unit := do
  (← Writer.scheme).put digits

/-- Reads digits with the scheme of the source. -/
def Reader.takeDigits : Reader Digits := do
  (← Reader.scheme).take

end Scale
