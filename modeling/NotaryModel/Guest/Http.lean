import NotaryModel.Primitives.Text

namespace Guest

open Exec (expect)

def crlf : Bytes := [0x0d, 0x0a]
def blankLine : Bytes := [0x0d, 0x0a, 0x0d, 0x0a]

-- The size of a chunk in its first line.
def chunkLen (line : Bytes) : Option Nat :=
  Text.fromStrRadix16 <| Text.trim <| (Text.split [0x3b] line).headD []

def stripCrlf (s : Bytes) : Bytes :=
  if crlf.isPrefixOf s then s.drop 2 else s

theorem length_stripCrlf_le (s : Bytes) : (stripCrlf s).length ≤ s.length := by
  unfold stripCrlf
  split <;> simp

def unchunk.loop (s out : Bytes) : Exec Bytes :=
  match _h : Text.splitOnce crlf s with
  | none              => pure out
  | some (line, rest) =>
    match chunkLen line with
    | none   => pure out
    | some n =>
      if n = 0 then pure out
      else if rest.length < n then pure out
      else do
        let chunk ← Text.sliceTo rest n
        unchunk.loop (stripCrlf (rest.drop n)) (out ++ chunk)
termination_by s.length
decreasing_by
  have hl := Text.length_lt_of_splitOnce _h
  have hs := length_stripCrlf_le (rest.drop n)
  rw [List.length_drop] at hs
  omega

def unchunk (body : Bytes) : Exec Bytes := do
  let out ← unchunk.loop body []
  pure (if out = [] then body else out)

-- The text that is parsed as JSON.
def responseBody (notUtf8 : String) (plaintext : Bytes) : Exec Bytes := do
  let response ← expect notUtf8 (Text.fromUtf8 plaintext)
  let rawBody := ((Text.split blankLine response)[1]?).getD []
  unchunk rawBody

end Guest
