/-
GrammarInference/Mining/Tokens.lean

From the traces of a lexer to a grammar of tokens.

Design.  Every trace contributes one sample to its token, a random solution for each position, and all its
solutions but zero to the alphabet of the token.  The samples of a token become the alternatives of an external
nonterminal, to which the nonterminal of the token refers.  Tokens are listed by their identifiers: texts that
are no numbers first, then numbers by their value, equal ones by their text.
-/
import GrammarInference.Collection.OrderedSet
import GrammarInference.Mining.Miner

namespace GrammarInference

/-- The samples and alphabets of tokens. -/
structure TokenMiner where
  /-- The settings. -/
  config : MinerConfig
  /-- The random stream. -/
  random : RandomStream
  /-- The distinct samples of each token, oldest first. -/
  samples : OrderedMap String (OrderedSet String)
  /-- The characters of each token. -/
  alphabets : OrderedMap String (SortedSet Char)

namespace TokenMiner

/-- Nothing was mined. -/
def new (config : MinerConfig) : TokenMiner := ⟨config, .ofSeed config.generalize.seed, ∅, ∅⟩

/-- The number of tokens with a sample. -/
def tokenCount (m : TokenMiner) : Nat := m.samples.size

/-- The character of a byte. -/
def byteChar (v : Nat) : Except Error Char :=
  if v < 256 then .ok (Char.ofNat v) else .error (.solutionOutOfRange v)

/-- Adds the characters of all solutions but zero, up to the first that is no byte. -/
def addSolutions (alphabet : SortedSet Char) : List Nat → Except Error Unit × SortedSet Char
  | [] => (.ok (), alphabet)
  | v :: rest =>
    if v = 0 then addSolutions alphabet rest
    else
      match byteChar v with
      | .error e => (.error e, alphabet)
      | .ok c => addSolutions (alphabet.insert c) rest

/-- The rest of a sample, and what was drawn and seen on the way. -/
structure Draw where
  /-- The random stream. -/
  random : RandomStream
  /-- The characters. -/
  alphabet : SortedSet Char

/-- Draws a character for each position, up to the first solution that is no byte. -/
def drawSample (d : Draw) : List PositionRecord → Except Error (List Char) × Draw
  | [] => (.ok [], d)
  | r :: rest =>
    match d.random.choose r.values with
    | (none, random) => drawSample { d with random := random } rest
    | (some v, random) =>
      match byteChar v with
      | .error e => (.error e, { d with random := random })
      | .ok c =>
        match addSolutions d.alphabet r.values with
        | (.error e, alphabet) => (.error e, ⟨random, alphabet⟩)
        | (.ok (), alphabet) =>
          match drawSample ⟨random, alphabet⟩ rest with
          | (.ok cs, d) => (.ok (c :: cs), d)
          | (.error e, d) => (.error e, d)

/-- Adds one trace. -/
def addTrace (m : TokenMiner) (t : TokenTrace) : Except Error Unit × TokenMiner :=
  let positions := dropTrailing m.config.order PositionRecord.values t.trace.positions
  let alphabet := (m.alphabets.get? t.tokenId).getD ∅
  let (result, d) := drawSample ⟨m.random, alphabet⟩ positions
  let m := { m with random := d.random, alphabets := m.alphabets.insert t.tokenId d.alphabet }
  match result with
  | .error e => (.error e, m)
  | .ok cs =>
    let samples := ((m.samples.get? t.tokenId).getD ∅).insert (String.ofList cs)
    (.ok (), { m with samples := m.samples.insert t.tokenId samples })

/-- Adds the traces of some files, up to the first error. -/
def addFiles (m : TokenMiner) : List File → Except Error Unit × TokenMiner
  | [] => (.ok (), m)
  | (_, text) :: rest =>
    match TokenTrace.ofJsonText text with
    | .error e => (.error e, m)
    | .ok t =>
      match m.addTrace t with
      | (.error e, m) => (.error e, m)
      | (.ok (), m) => addFiles m rest

/-- Adds the traces of some directories, up to the first error. -/
def addDirectories (m : TokenMiner) : List (Option (List File)) → Except Error Unit × TokenMiner
  | [] => (.ok (), m)
  | none :: _ => (.error .unreadable, m)
  | some files :: rest =>
    match m.addFiles (sortFiles files) with
    | (.error e, m) => (.error e, m)
    | (.ok (), m) => addDirectories m rest

/-- Does the identifier `a` come before `b`, or are they equal? -/
def idLe (a b : String) : Bool :=
  match parseWord? a.toList, parseWord? b.toList with
  | none, none => !decide (b < a)
  | none, some _ => true
  | some _, none => false
  | some m, some n => decide (m.toNat < n.toNat) || (decide (m = n) && !decide (b < a))

/-- The identifiers of the tokens with a sample, in order. -/
def sortedIds (m : TokenMiner) : List String := m.samples.keys.mergeSort idLe

/-- The nonterminal for the samples of a token. -/
def externalName (id : String) : String := "<__external_" ++ id ++ ">"

/-- The grammar of the samples. -/
def rawGrammar (m : TokenMiner) : Grammar :=
  .ofList (m.sortedIds.flatMap fun id =>
    [(externalName id, ((m.samples.get? id).getD ∅).toList.map fun s => [.terminal s]),
     (tokenName id, [[.nonterminal (externalName id)]])])

/-- The alphabets of the nonterminals for samples. -/
def rawAlphabets (m : TokenMiner) : OrderedMap String (SortedSet Char) :=
  .ofList (m.sortedIds.map fun id => (externalName id, (m.alphabets.get? id).getD ∅))

/-- The grammar of tokens. -/
def finish (m : TokenMiner) : Except Error Grammar :=
  (Generalizer.new m.config.generalize).generalize m.rawGrammar m.rawAlphabets

end TokenMiner

/-- Mines a grammar of tokens from the traces in some directories, each of which may not exist. -/
def mineTokens (dirs : List (Option (List File))) (config : MinerConfig) : Except Error Grammar :=
  match (TokenMiner.new config).addDirectories dirs with
  | (.error e, _) => .error e
  | (.ok (), m) => m.finish

end GrammarInference
