import NotaryModel.Guest.Record

namespace Guest

-- The inner loop of `parse_key_share_client`: `data` are the bytes of the extension that are left and
-- `left` is how many of them belong to the list of shares.
def parseKeyShareClient.shares (data : Bytes) (left : Nat) : Option (Arr 32) :=
  if left < 4 then
    none
  else
    match data with
    | g₀ :: g₁ :: k₀ :: k₁ :: data =>
      let group := Bytes.ofBe [g₀, g₁]
      let klen := Bytes.ofBe [k₀, k₁]
      if data.length < klen then
        none
      else if group = 0x001d ∧ klen = 32 then
        some (.ofBytes 32 (data.take 32))
      else
        parseKeyShareClient.shares (data.drop klen) (left - (4 + klen))
    | _ => none
termination_by left

def parseKeyShareClient : Bytes → Option (Arr 32)
  | t₀ :: t₁ :: l₀ :: l₁ :: exts =>
    let extType := Bytes.ofBe [t₀, t₁]
    let extLen := Bytes.ofBe [l₀, l₁]
    if exts.length < extLen then
      none
    else
      let extData := exts.take extLen
      if extType = 0x0033 then
        if extData.length < 2 then
          none
        else
          let listLen := Bytes.ofBe (Bytes.slice extData 0 2)
          let stop := min (2 + listLen) extData.length
          (parseKeyShareClient.shares (extData.drop 2) (stop - 2)).or
            (parseKeyShareClient (exts.drop extLen))
      else
        parseKeyShareClient (exts.drop extLen)
  | _ => none
termination_by exts => exts.length
decreasing_by all_goals simp only [List.length_drop, List.length_cons]; omega

def parseKeyShareServer : Bytes → Option (Arr 32)
  | t₀ :: t₁ :: l₀ :: l₁ :: exts =>
    let extType := Bytes.ofBe [t₀, t₁]
    let extLen := Bytes.ofBe [l₀, l₁]
    if exts.length < extLen then
      none
    else
      let extData := exts.take extLen
      if extType = 0x0033 then
        if extData.length < 4 then
          none
        else
          let group := Bytes.ofBe (Bytes.slice extData 0 2)
          let klen := Bytes.ofBe (Bytes.slice extData 2 4)
          if group = 0x001d ∧ klen = 32 ∧ 4 + 32 ≤ extData.length then
            some (.ofBytes 32 (Bytes.slice extData 4 36))
          else
            parseKeyShareServer (exts.drop extLen)
      else
        parseKeyShareServer (exts.drop extLen)
  | _ => none
termination_by exts => exts.length
decreasing_by all_goals simp only [List.length_drop, List.length_cons]; omega

-- The body of the first message of type `msgType` in the first handshake record.
def firstMessage (msgType : Byte) (records : List RawRecord) : Option Bytes := do
  let r ← records.find? (·.contentType == 22)
  let msgs ← (parseHandshakeMessages r.payload).toOption
  let msg ← msgs.find? (·.msgType == msgType)
  pure msg.body

def parseClientHelloKeyShare (outbound : Bytes) : Exec (Option (Arr 32)) := do
  let records ← parseRecords outbound
  pure do
    let body ← firstMessage 1 records
    let pos := 2 + 32
    let sidLen ← body[pos]?
    let pos := pos + (1 + sidLen.toNat)
    guard (pos + 2 ≤ body.length)
    let csLen := Bytes.ofBe (Bytes.slice body pos (pos + 2))
    let pos := pos + (2 + csLen)
    let cmLen ← body[pos]?
    let pos := pos + (1 + cmLen.toNat)
    guard (pos + 2 ≤ body.length)
    let extTotal := Bytes.ofBe (Bytes.slice body pos (pos + 2))
    let pos := pos + 2
    let extEnd := pos + extTotal
    parseKeyShareClient (Bytes.slice body pos (min extEnd body.length))

def parseServerHelloKeyShare (inbound : Bytes) : Exec (Option (Arr 32)) := do
  let records ← parseRecords inbound
  pure do
    let body ← firstMessage 2 records
    let pos := 2 + 32
    let sidLen ← body[pos]?
    let pos := pos + (1 + sidLen.toNat)
    let pos := pos + 2
    let pos := pos + 1
    guard (pos + 2 ≤ body.length)
    let extTotal := Bytes.ofBe (Bytes.slice body pos (pos + 2))
    let pos := pos + 2
    let extEnd := pos + extTotal
    parseKeyShareServer (Bytes.slice body pos (min extEnd body.length))

end Guest
