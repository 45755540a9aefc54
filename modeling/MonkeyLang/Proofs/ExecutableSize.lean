import Mathlib.Algebra.Order.BigOperators.Group.List
import MonkeyLang.Proofs.Artifacts
import MonkeyLang.Proofs.ParserSoundness
import MonkeyLang.Proofs.Partition
import MonkeyLang.Proofs.Words
/-!
# How large an executable gets

An executable is stored with its sizes in eight bytes each, and nothing keeps a program from getting more code than that. What
does is its source, whose positions have to fit four bytes. Every piece of syntax gets at most a fixed number of bytes of code
for each of its tokens, and the constants it adds are no larger than its tokens are. `Spells.bounded` proves both by one
induction on how the tokens spell the piece.
-/

namespace MonkeyLang

/-! ### Weights -/

/-- The bytes of some tokens, and one more for each of them. -/
def weight : List Token → Nat
  | [] => 0
  | t :: ts => t.lexeme.utf8ByteSize + 1 + weight ts

@[simp] theorem weight_nil : weight [] = 0 := rfl

@[simp] theorem weight_cons (t : Token) (ts : List Token) : weight (t :: ts) = t.lexeme.utf8ByteSize + 1 + weight ts := rfl

@[simp] theorem weight_append (ts us : List Token) : weight (ts ++ us) = weight ts + weight us := by
  induction ts with
  | nil => simp
  | cons t ts ih => simp [ih, Nat.add_assoc]

/-- The tokens of a partition weigh at most twice what the text does, if all of them keep their text. -/
theorem Partition.weight_le {before text : List Char} {tokens : List Token} {eof : Token}
    (h : Partition before text tokens eof) (herror : ∀ t ∈ tokens, t.kind ≠ .error) : weight tokens ≤ 2 * byteSize text := by
  induction h with
  | stop => exact Nat.zero_le _
  | @token before gap c taken rest t ts eof hgap hkind hspan htext hrest ih =>
    have hlexeme : t.lexeme.utf8ByteSize = byteSize (c :: taken) := by
      rw [byteSize, ← htext (herror t List.mem_cons_self), String.ofList_toList]
    have hpos : 0 < byteSize (c :: taken) := by
      rw [byteSize_cons]
      exact Nat.add_pos_left c.utf8Size_pos _
    have hle := ih fun u hu => herror u (List.mem_cons_of_mem t hu)
    rw [weight_cons, byteSize_append, byteSize_append, hlexeme]
    omega

/-- The tokens of a source weigh at most twice what the source does. -/
theorem weight_le_of_scan {source : String} {tokens : List Token} (h : (Lexeme.scan source).1 = tokens.map .token) :
    weight tokens ≤ 2 * source.utf8ByteSize := by
  have hscans := Lexeme.scan_eq_iff.mp (Prod.ext h rfl : Lexeme.scan source = (tokens.map .token, (Lexeme.scan source).2))
  obtain ⟨eof, hpartition⟩ := Lexeme.exists_partition_of_scan h
  have herror : ∀ t ∈ tokens, t.kind ≠ .error := fun t ht =>
    (hscans.written (List.mem_map_of_mem ht)).ne_eof_and_ne_error.2
  have hle := hpartition.weight_le herror
  rwa [byteSize_toList] at hle

/-! ### Volumes -/

def Constant.volume : Constant → Nat
  | int _ => 1
  | string text => text.utf8ByteSize + 1

namespace ConstantPool

/-- The bytes of the texts in a pool, and one more for each constant. -/
def volume (p : ConstantPool) : Nat := (p.toList.map Constant.volume).sum

variable {p : ConstantPool} {c : Constant}

theorem volume_add_le {place : Nat} {p' : ConstantPool} (h : p.add c = (place, p')) : p'.volume ≤ p.volume + c.volume := by
  unfold add at h
  split at h
  case h_1 =>
    cases h
    exact Nat.le_add_right _ _
  case h_2 =>
    cases h
    simp [volume, toList]

theorem volume_le_of_mem (h : c ∈ p.toList) : c.volume ≤ p.volume :=
  List.le_sum_of_mem (List.mem_map_of_mem h)

theorem size_le_volume (p : ConstantPool) : p.size ≤ p.volume := by
  have hpos : ∀ n ∈ p.toList.map Constant.volume, 1 ≤ n := by
    intro n hn
    obtain ⟨c, -, rfl⟩ := List.mem_map.mp hn
    cases c <;> simp [Constant.volume]
  have hle := List.length_le_sum_of_one_le _ hpos
  rwa [List.length_map] at hle

end ConstantPool

/-! ### Literals -/

theorem byteSize_le_of_isInfix {cs ds : List Char} (h : cs <:+: ds) : byteSize cs ≤ byteSize ds := by
  obtain ⟨front, behind, rfl⟩ := h
  rw [byteSize_append, byteSize_append]
  omega

theorem Unescapes.byteSize_le {cs text : List Char} (h : Unescapes cs text) : byteSize text ≤ byteSize cs := by
  induction h with
  | nil => exact Nat.le_refl _
  | plain _ _ ih =>
    rw [byteSize_cons, byteSize_cons]
    omega
  | @pair c value cs text hpair _ ih =>
    have hone : ∀ e ∈ escapes, e.2.utf8Size = 1 := by decide
    have hvalue : value.utf8Size = 1 := hone _ hpair
    have hpos := c.utf8Size_pos
    rw [byteSize_cons, byteSize_cons, byteSize_cons]
    omega

/-- A string is no longer than the literal that stands for it. -/
theorem Literal.utf8ByteSize_le_of_string {lexeme value : String} (h : Literal.string lexeme = .ok value) :
    value.utf8ByteSize ≤ lexeme.utf8ByteSize := by
  have hvalue := (Literal.string_eq_ok_iff.mp h).byteSize_le
  have hbody : Literal.body lexeme <:+: lexeme.toList := by
    dsimp only [Literal.body]
    split
    · exact (List.dropLast_prefix _).isInfix.trans (List.tail_suffix _).isInfix
    · exact List.infix_rfl
  have hle := hvalue.trans (byteSize_le_of_isInfix hbody)
  rwa [byteSize_toList, byteSize_toList] at hle

/-! ### Sizes of instructions -/

theorem Storage.size_le_of_load? {s : Storage} {i : Instruction} (h : s.load? = some i) : i.size ≤ 3 := by
  cases s with
  | running =>
    cases h
    decide
  | _ =>
    obtain ⟨-, heq⟩ := Option.ite_none_right_eq_some.mp h
    cases heq
    simp [Instruction.size_eq]

theorem Storage.size_le_of_store? {s : Storage} {i : Instruction} (h : s.store? = some i) : i.size ≤ 3 := by
  cases s with
  | builtin | captured | running => cases h
  | _ =>
    obtain ⟨-, heq⟩ := Option.ite_none_right_eq_some.mp h
    cases heq
    simp [Instruction.size_eq]

theorem codeSize_loads_le {symbols : List Symbol} {loads : List Instruction} (line : Nat)
    (h : List.Forall₂ (fun symbol i => symbol.storage.load? = some i) symbols loads) :
    codeSize (loads.map fun i => ⟨line, i⟩) ≤ 3 * symbols.length := by
  induction h with
  | nil => exact Nat.le_refl _
  | cons hload _ ih =>
    have hsize := Storage.size_le_of_load? hload
    simp only [List.map_cons, codeSize_cons, List.length_cons]
    omega

/-! ### Code of tokens -/

/-- Whatever code a phrase gets, its tokens allow for it and for some more, and they allow for the constants. -/
def Phrase.Bounded (spare : Nat) (ts : List Token) (p : Phrase) : Prop :=
  ∀ g code g', Generates p g code g' →
    codeSize code + spare ≤ 1024 * weight ts + 1 ∧ g'.pool.volume ≤ g.pool.volume + weight ts

/-- What is spared is what the pieces around need: an expression leaves more than the statement around it. -/
def Node.Bounded (ts : List Token) : Node → Prop
  | expr e => ∀ name, Phrase.Bounded 513 ts (.expr name e)
  | operands _ rest => Phrase.Bounded 1 ts (.operands rest)
  | exprs es => Phrase.Bounded 1 ts (.exprs es)
  | pairs ps => Phrase.Bounded 1 ts (.pairs ps)
  | params _ => True
  | block (.mk ss _) => Phrase.Bounded 0 ts (.valueStmts ss) ∧ Phrase.Bounded 0 ts (.functionStmts ss)
  | stmt s => Phrase.Bounded 257 ts (.stmt s)
  | stmts ss =>
    Phrase.Bounded 0 ts (.stmts ss) ∧ Phrase.Bounded 0 ts (.valueStmts ss) ∧ Phrase.Bounded 0 ts (.functionStmts ss)

/-- Tokens around a phrase allow for more. -/
theorem Phrase.Bounded.between {spare : Nat} {ts : List Token} {p : Phrase} (h : p.Bounded spare ts) (t u : Token) :
    p.Bounded spare (t :: (ts ++ [u])) := by
  intro g code g' hgenerates
  have hle := h g code g' hgenerates
  simp only [weight_cons, weight_append, weight_nil]
  omega

/-- Code is at most 1024 bytes for each token and each byte of a token, and constants are no larger than the tokens. -/
theorem Spells.bounded {node : Node} {ts : List Token} (h : Spells node ts) : node.Bounded ts := by
  induction h with
  | int =>
    intro name g code g' h
    cases h with
    | constant hconstant hadd =>
      cases hconstant
      have hvolume := ConstantPool.volume_add_le hadd
      simp [Constant.volume, Instruction.size_eq] at hvolume ⊢
      omega
  | string _ hvalue =>
    intro name g code g' h
    cases h with
    | constant hconstant hadd =>
      cases hconstant
      have hvolume := ConstantPool.volume_add_le hadd
      have hsize := Literal.utf8ByteSize_le_of_string hvalue
      simp [Constant.volume, Instruction.size_eq] at hvolume ⊢
      omega
  | bool =>
    intro name g code g' h
    cases h with
    | constant hconstant => cases hconstant
    | bool =>
      simp [Instruction.size_eq]
      omega
  | ident =>
    intro name g code g' h
    cases h with
    | constant hconstant => cases hconstant
    | ident _ hload =>
      have hsize := Storage.size_le_of_load? hload
      simp
      omega
  | chain _ _ _ _ ihfirst ihrest =>
    intro name g code g' h
    cases h with
    | constant hconstant => cases hconstant
    | chain hfirst hrest =>
      have hfirst := ihfirst none _ _ _ hfirst
      have hrest := ihrest _ _ _ hrest
      simp only [codeSize_append, weight_append]
      omega
  | unary _ _ _ ih =>
    intro name g code g' h
    cases h with
    | constant hconstant => cases hconstant
    | unary hoperand =>
      have hoperand := ih none _ _ _ hoperand
      simp [Instruction.size_eq]
      omega
  | call _ _ _ _ _ ihcallee ihargs =>
    intro name g code g' h
    cases h with
    | constant hconstant => cases hconstant
    | call hcallee hargs =>
      have hcallee := ihcallee none _ _ _ hcallee
      have hargs := ihargs _ _ _ hargs
      simp [Instruction.size_eq]
      omega
  | index _ _ _ _ _ ihobject ihindex =>
    intro name g code g' h
    cases h with
    | constant hconstant => cases hconstant
    | index hobject hindex =>
      have hobject := ihobject none _ _ _ hobject
      have hindex := ihindex none _ _ _ hindex
      simp [Instruction.size_eq]
      omega
  | array _ _ _ ih =>
    intro name g code g' h
    cases h with
    | constant hconstant => cases hconstant
    | array helements =>
      have helements := ih _ _ _ helements
      simp [Instruction.size_eq]
      omega
  | hash _ _ _ ih =>
    intro name g code g' h
    cases h with
    | constant hconstant => cases hconstant
    | hash hpairs =>
      have hpairs := ih _ _ _ hpairs
      simp [Instruction.size_eq]
      omega
  | @function t _ _ _ body _ _ _ _ _ _ _ _ ihbody =>
    obtain ⟨ss, blockSpan⟩ := body
    intro name g code g' h
    cases h with
    | constant hconstant => cases hconstant
    | function hbody _ _ hloads _ _ _ hfree =>
      have hbody := ihbody.2 _ _ _ hbody
      have hsize := codeSize_loads_le (t.span.cover (Block.mk ss blockSpan).span).line hloads
      simp [Instruction.size_eq] at hbody ⊢
      omega
  | ifThen _ _ _ _ _ ihcondition ihthen =>
    intro name g code g' h
    cases h with
    | constant hconstant => cases hconstant
    | ifElse hcondition hthen _ helse =>
      have hcondition := ihcondition none _ _ _ hcondition
      cases hthen with
      | valueBlock hthen =>
        cases helse with
        | otherwiseNone =>
          have hthen := ihthen.1 _ _ _ hthen
          simp [Instruction.size_eq] at hthen ⊢
          omega
  | ifElse _ _ _ _ _ _ _ ihcondition ihthen ihelse =>
    intro name g code g' h
    cases h with
    | constant hconstant => cases hconstant
    | ifElse hcondition hthen _ helse =>
      have hcondition := ihcondition none _ _ _ hcondition
      cases hthen with
      | valueBlock hthen =>
        cases helse with
        | otherwiseSome helse =>
          cases helse with
          | valueBlock helse =>
            have hthen := ihthen.1 _ _ _ hthen
            have helse := ihelse.1 _ _ _ helse
            simp [Instruction.size_eq] at hthen helse ⊢
            omega
  | paren _ _ _ ih =>
    intro name g code g' h
    cases h with
    | constant hconstant => cases hconstant
    | paren hinner =>
      have hinner := ih name _ _ _ hinner
      simp
      omega
  | operandsNil =>
    intro g code g' h
    cases h
    simp
  | operandsCons _ _ _ _ _ ihoperand ihrest =>
    intro g code g' h
    cases h with
    | operandsCons hoperand hrest =>
      have hoperand := ihoperand none _ _ _ hoperand
      have hrest := ihrest _ _ _ hrest
      simp [Instruction.size_eq] at hrest ⊢
      omega
  | exprsNil =>
    intro g code g' h
    cases h
    simp
  | exprsLast _ ih =>
    intro g code g' h
    cases h with
    | exprsCons hfirst hrest =>
      cases hrest
      have hfirst := ih none _ _ _ hfirst
      simp
      omega
  | exprsCons _ _ _ _ ihe ihrest =>
    intro g code g' h
    cases h with
    | exprsCons hfirst hrest =>
      have hfirst := ihe none _ _ _ hfirst
      have hrest := ihrest _ _ _ hrest
      simp
      omega
  | pairsNil =>
    intro g code g' h
    cases h
    simp
  | pairsLast _ _ _ ihkey ihvalue =>
    intro g code g' h
    cases h with
    | pairsCons hkey hvalue hrest =>
      cases hrest
      have hkey := ihkey none _ _ _ hkey
      have hvalue := ihvalue none _ _ _ hvalue
      simp
      omega
  | pairsCons _ _ _ _ _ _ ihkey ihvalue ihrest =>
    intro g code g' h
    cases h with
    | pairsCons hkey hvalue hrest =>
      have hkey := ihkey none _ _ _ hkey
      have hvalue := ihvalue none _ _ _ hvalue
      have hrest := ihrest _ _ _ hrest
      simp
      omega
  | paramsNil | paramsLast | paramsCons => trivial
  | block _ _ _ ih => exact ⟨ih.2.1.between _ _, ih.2.2.between _ _⟩
  | letStmt _ _ _ _ _ ih =>
    intro g code g' h
    cases h with
    | letStmt hvalue hstore =>
      have hvalue := ih _ _ _ _ hvalue
      have hsize := Storage.size_le_of_store? hstore
      simp at hvalue ⊢
      omega
  | returnStmt _ _ _ ih =>
    intro g code g' h
    cases h with
    | returnStmt hvalue =>
      have hvalue := ih none _ _ _ hvalue
      simp [Instruction.size_eq] at hvalue ⊢
      omega
  | exprStmt _ _ ih =>
    intro g code g' h
    cases h with
    | exprStmt hexpr =>
      have hexpr := ih none _ _ _ hexpr
      simp [Instruction.size_eq] at hexpr ⊢
      omega
  | stmtsNil =>
    refine ⟨?_, ?_, ?_⟩ <;> intro g code g' h <;> cases h <;> simp [Instruction.size_eq]
  | stmtsCons _ _ ihs ihrest =>
    refine ⟨?_, ?_, ?_⟩ <;> intro g code g' h
    · cases h with
      | stmtsCons hfirst hrest =>
        have hfirst := ihs _ _ _ hfirst
        have hrest := ihrest.1 _ _ _ hrest
        simp
        omega
    · cases h with
      | valueExpr hexpr =>
        -- The value is kept, which saves an instruction.
        have hstmt := ihs _ _ _ (.exprStmt hexpr)
        simp at hstmt ⊢
        omega
      | valueLast _ hlast =>
        have hlast := ihs _ _ _ hlast
        simp [Instruction.size_eq]
        omega
      | valueCons hfirst hrest =>
        have hfirst := ihs _ _ _ hfirst
        have hrest := ihrest.2.1 _ _ _ hrest
        simp
        omega
    · cases h with
      | functionExpr hexpr =>
        have hstmt := ihs _ _ _ (.exprStmt hexpr)
        simp [Instruction.size_eq] at hstmt ⊢
        omega
      | functionReturn hvalue =>
        have hstmt := ihs _ _ _ (.returnStmt hvalue)
        simp at hstmt ⊢
        omega
      | functionLet hlast =>
        have hlast := ihs _ _ _ hlast
        simp [Instruction.size_eq]
        omega
      | functionCons hfirst hrest =>
        have hfirst := ihs _ _ _ hfirst
        have hrest := ihrest.2.2 _ _ _ hrest
        simp
        omega

/-! ### Executables -/

/-- The pool of an executable is filled by adding constants. -/
theorem Generates.exists_ofList {p : Phrase} {g : Generator} {code : List CodeLine} {g' : Generator}
    (h : Generates p g code g') (hpool : ∃ cs, g.pool = .ofList cs) : ∃ cs, g'.pool = .ofList cs := by
  induction h with
  | @constant _ _ c _ _ _ _ hadd =>
    obtain ⟨cs, hcs⟩ := hpool
    rw [hcs] at hadd
    exact ⟨cs ++ [c], by rw [ConstantPool.ofList_concat, hadd]; rfl⟩
  | _ => simp_all

/-- What is generated for a source that is read without an error can be stored, and comes back as it was but for its lines, if
the positions of the source fit. -/
theorem ofBytes_toBytes_of_parse {source : String} {program : Program} {e : Executable}
    (hfits : source.utf8ByteSize < Span.limit) (hparse : Program.parse source = .ok program)
    (hgenerate : generate program = .ok e) : Executable.ofBytes e.toBytes = .ok ⟨.ofCode e.chunk.code, e.pool⟩ := by
  obtain ⟨code, g, hgenerates, rfl⟩ := generates_of_generate_eq_ok hgenerate
  obtain ⟨tokens, hscan, hspells⟩ := Program.spells_of_parse hparse
  have hweight := weight_le_of_scan hscan
  obtain ⟨hcode, hvolume⟩ := hspells.bounded.1 _ _ _ hgenerates
  have hempty : Generator.initial.pool.volume = 0 := rfl
  unfold Span.limit at hfits
  have hstorable : Executable.Storable ⟨code.toChunk, g.pool⟩ := by
    refine ⟨?_, ?_, ?_⟩
    · have hsize := g.pool.size_le_volume
      dsimp only
      omega
    · intro text htext
      have hle := ConstantPool.volume_le_of_mem htext
      dsimp only [Constant.volume] at hle
      omega
    · have hsize : code.toChunk.code.size = codeSize code.toList := size_toChunk code
      dsimp only
      omega
  obtain ⟨cs, hcs⟩ := hgenerates.exists_ofList ⟨[], rfl⟩
  have hread := ofBytes_toBytes_append hstorable []
  rw [List.append_nil] at hread
  rw [hread, hcs, ConstantPool.toList_ofList, ConstantPool.ofList_eraseDups]

end MonkeyLang
