import FuzzMonitor.CStrings
import FuzzMonitor.GetOpt

namespace FuzzMonitor.Main
open CStrings GetOpt

def optString : CText := "g:s:ib:t:c:".toList

/-- How getopt reads a list of options: a letter takes an argument if a colon follows it. -/
def takesArg (optstring : CText) (c : Char) : Option Bool :=
  if c = ':' ∨ c = ';' then none
  else
    match optstring.dropWhile (· ≠ c) with
    | [] => none
    | _ :: rest => some (rest.head? = some ':')

/-- getopt as main calls it; POSIXLY_CORRECT in the environment keeps operands in their place. -/
def optSpec (posixlyCorrect : Bool) : Spec Char := ⟨takesArg optString, '-', !posixlyCorrect⟩

structure Options where
  graphFilename : Option CText
  secName : Option CText
  printSeenInputs : Bool
  basicBlockScript : Option CText
  graphIndivPath : Option CText
  fuzzCorpusPath : Option CText
  deriving DecidableEq, Repr

def Options.start : Options := ⟨none, none, false, none, none, none⟩

/-- The switch of main, which has no case for what getopt does not know. -/
def Options.set (o : Options) : Found Char → Options
  | .flag 'i' => { o with printSeenInputs := true }
  | .arg 'g' optarg => { o with graphFilename := some optarg }
  | .arg 's' optarg => { o with secName := some optarg }
  | .arg 'b' optarg => { o with basicBlockScript := some optarg }
  | .arg 't' optarg => { o with graphIndivPath := some optarg }
  | .arg 'c' optarg => { o with fuzzCorpusPath := some optarg }
  | _ => o

/-- The loop of main over the words behind its name, with argv + optind. -/
def readOptions (posixlyCorrect : Bool) (args : List CText) : Options × List CText :=
  let r := getopt (optSpec posixlyCorrect) none args
  (r.1.foldl Options.set .start, r.2)

def Options.found (o : Options) : List (Found Char) :=
  o.graphFilename.toList.map (.arg 'g') ++ o.secName.toList.map (.arg 's') ++
    (if o.printSeenInputs then [.flag 'i'] else []) ++
    o.basicBlockScript.toList.map (.arg 'b') ++ o.graphIndivPath.toList.map (.arg 't') ++
    o.fuzzCorpusPath.toList.map (.arg 'c')

def letter : Found Char → Char
  | .flag c => c
  | .arg c _ => c
  | .unknown c => c
  | .missing c => c

theorem set_found (o : Options) : o.found.foldl Options.set .start = o := by
  obtain ⟨graphFilename, secName, printSeenInputs, basicBlockScript, graphIndivPath,
    fuzzCorpusPath⟩ := o
  cases graphFilename <;> cases secName <;> cases printSeenInputs <;> cases basicBlockScript <;>
    cases graphIndivPath <;> cases fuzzCorpusPath <;> rfl

theorem found_letters_nodup (o : Options) : (o.found.map letter).Nodup := by
  obtain ⟨graphFilename, secName, printSeenInputs, basicBlockScript, graphIndivPath,
    fuzzCorpusPath⟩ := o
  have hall : ['g', 's', 'i', 'b', 't', 'c'].Nodup := by decide
  refine List.Nodup.sublist ?_ hall
  cases graphFilename <;> cases secName <;> cases printSeenInputs <;> cases basicBlockScript <;>
    cases graphIndivPath <;> cases fuzzCorpusPath <;> simp [Options.found, letter] <;> decide

theorem set_comm (o : Options) {f g : Found Char} (h : letter f ≠ letter g) :
    (o.set f).set g = (o.set g).set f := by
  unfold Options.set
  split <;> split <;> first | rfl | exact absurd rfl h

theorem set_found_of_perm {o : Options} {found : List (Found Char)} (h : found.Perm o.found) :
    found.foldl Options.set .start = o := by
  rw [h.foldl_eq', set_found]
  intro f hf g hg o'
  by_cases hletter : letter f = letter g
  · have hsame := List.inj_on_of_nodup_map (found_letters_nodup o) (h.mem_iff.mp hf)
      (h.mem_iff.mp hg) hletter
    rw [hsame]
  · exact set_comm o' hletter

theorem optSpec_dash (posixlyCorrect : Bool) :
    (optSpec posixlyCorrect).takesArg (optSpec posixlyCorrect).dash = none := by
  show takesArg optString '-' = none
  decide

/-- A command that follows the options without an end of the options is left as it is exactly
when none of its words looks like an option, or, under POSIXLY_CORRECT, its first one does not. -/
theorem readOptions_command_iff (posixlyCorrect : Bool) (o : Options) (ps : List (Piece Char))
    (command : List CText) (hps : ∀ p ∈ ps, p.Proper (optSpec posixlyCorrect))
    (hfound : (ps.flatMap Piece.found).Perm o.found) (hops : ps.flatMap Piece.operands = []) :
    readOptions posixlyCorrect (ps.flatMap (Piece.words '-') ++ command) = (o, command) ↔
      ∀ w ∈ if posixlyCorrect then command.take 1 else command,
        isOption (optSpec posixlyCorrect) w = false := by
  have hread := getopt_pieces (optSpec_dash posixlyCorrect) hps command
  rw [hops, List.nil_append] at hread
  change getopt (optSpec posixlyCorrect) none (ps.flatMap (Piece.words '-') ++ command) = _ at hread
  have hlooked : looked (optSpec posixlyCorrect) command =
      if posixlyCorrect then command.take 1 else command := by
    cases posixlyCorrect <;> rfl
  rw [← hlooked]
  unfold readOptions
  rw [hread]
  constructor
  · intro h
    exact (getopt_operands_eq_iff _ _).mp (congrArg Prod.snd h)
  · intro h
    rw [getopt_of_looked h, List.append_nil]
    dsimp only
    rw [set_found_of_perm hfound]

/-- The monitor takes the -i of its target for its own. -/
theorem readOptions_command_taken :
    readOptions false (([.separate [] 'c' "corpus".toList] : List (Piece Char)).flatMap
        (Piece.words '-') ++ ["./sut".toList, "-i".toList]) ≠
      (⟨none, none, false, none, none, some "corpus".toList⟩, ["./sut".toList, "-i".toList]) := by
  have h := readOptions_command_iff false ⟨none, none, false, none, none, some "corpus".toList⟩
    [.separate [] 'c' "corpus".toList] ["./sut".toList, "-i".toList]
    (by
      rw [List.forall_mem_singleton]
      exact ⟨List.forall_mem_nil _, by decide⟩)
    (by decide) rfl
  rw [ne_eq, h]
  decide

end FuzzMonitor.Main
