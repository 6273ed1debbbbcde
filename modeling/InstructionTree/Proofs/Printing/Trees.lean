/-
The printed form of a tree determines the tree.

A text is cut where it can be cut in one way only. The head of a tree has
no delimiter in it, and what follows a head is a delimiter or nothing; the
mnemonic has no blank in it, and what follows it is a blank or nothing. So
two texts that are equal have equal heads, mnemonics and operands
(`append_inj_of_free`). An operand is of the kind that its letters say, and
its numeral can be read back.

# What follows a tree

The children have no length in the text. So the induction is about a tree
with what follows it (`display_append_inj`): where a tree ends, a comma or a
closing parenthesis follows, or nothing does. Two trees that are followed
by such texts and come to the same text are the same, and so are the texts
after them.
-/
import InstructionTree.Proofs.Printing.Numerals
import InstructionTree.Tree
import Mathlib.Data.Bool.AllAny

namespace InstructionTree

-- ================================================================ cutting

/-- The text is empty or starts with one of `stops`. -/
def StopsAt (stops : List Char) (t : List Char) : Prop :=
  ∀ c ∈ t.head?, c ∈ stops

/-- A text without stops, followed by one that starts with a stop, can be
cut in one way only. -/
theorem append_inj_of_free {stops l m u v : List Char}
    (hl : ∀ c ∈ l, c ∉ stops) (hm : ∀ c ∈ m, c ∉ stops)
    (hu : StopsAt stops u) (hv : StopsAt stops v) (heq : l ++ u = m ++ v) :
    l = m ∧ u = v := by
  induction l generalizing m with
  | nil =>
      cases m with
      | nil => exact ⟨rfl, heq⟩
      | cons c m =>
          refine absurd (hu c ?_) (hm c (.head _))
          rw [List.nil_append] at heq
          rw [heq]
          rfl
  | cons c l ih =>
      cases m with
      | nil =>
          refine absurd (hv c ?_) (hl c (.head _))
          rw [List.nil_append] at heq
          rw [← heq]
          rfl
      | cons d m =>
          obtain ⟨rfl, hrest⟩ := List.cons.inj heq
          obtain ⟨rfl, rfl⟩ := ih (fun c hc => hl c (.tail _ hc))
            (fun c hc => hm c (.tail _ hc)) hrest
          exact ⟨rfl, rfl⟩

-- =============================================================== operands

namespace Operand

/-- The letters that tell one kind of operand from another. -/
def letters : List Char := "VILx_".toList

/-- The letters in the printed form of an operand. -/
def kind : Operand → List Char
  | .none | .int32 _ => []
  | .int64 _ => "L".toList
  | .local _ => "V_".toList
  | .target _ => "IL_".toList
  | .token _ => "x".toList

theorem filter_eq_nil_of_figures {l : List Char}
    (hl : ∀ c ∈ l, c = '-' ∨ c ∈ Text.figures) :
    l.filter (· ∈ letters) = [] := by
  have hfigures : ∀ c ∈ '-' :: Text.figures, c ∉ letters :=
    List.all_iff_forall_prop.mp (by decide)
  refine List.filter_eq_nil_iff.mpr fun c hc => ?_
  have hfree := hfigures c (List.mem_cons.mpr (hl c hc))
  simpa using hfree

/-- The printed form says which kind of operand it is. -/
theorem filter_display (x : Operand) :
    x.display.toList.filter (· ∈ letters) = x.kind := by
  cases x with
  | none => rfl
  | int32 v => exact filter_eq_nil_of_figures fun c => Text.mem_integer
  | int64 v =>
      rw [display, String.toList_append, List.filter_append,
        filter_eq_nil_of_figures fun c => Text.mem_integer]
      rfl
  | «local» i =>
      rw [display, String.toList_append, List.filter_append,
        filter_eq_nil_of_figures fun c hc => .inr (Text.mem_natural hc)]
      rfl
  | target b =>
      rw [display, String.toList_append, List.filter_append,
        filter_eq_nil_of_figures fun c hc => .inr (Text.mem_hex hc)]
      rfl
  | token t =>
      rw [display, String.toList_append, List.filter_append,
        filter_eq_nil_of_figures fun c hc => .inr (Text.mem_upperHex hc)]
      rfl

/-- The printed form determines the operand. -/
theorem display_injective : Function.Injective display := by
  intro x y heq
  have hkind : x.kind = y.kind := by
    rw [← filter_display, ← filter_display, heq]
  cases x with
  | none =>
      cases y with
      | none => rfl
      | int32 w => exact absurd heq.symm (Text.integer_ne_empty _)
      | int64 | «local» | target | token => cases hkind
  | int32 v =>
      cases y with
      | none => exact absurd heq (Text.integer_ne_empty _)
      | int32 w =>
          exact congrArg int32
            (Int32.toInt_inj.mp (Text.integer_injective heq))
      | int64 | «local» | target | token => cases hkind
  | int64 v =>
      cases y with
      | int64 w =>
          have hsame := (String.append_left_inj _).mp heq
          exact congrArg int64
            (Int64.toInt_inj.mp (Text.integer_injective hsame))
      | none | int32 | «local» | target | token => cases hkind
  | «local» i =>
      cases y with
      | «local» j =>
          have hsame := (String.append_right_inj _).mp heq
          exact congrArg Operand.local
            (UInt16.toNat_inj.mp (Text.natural_injective hsame))
      | none | int32 | int64 | target | token => cases hkind
  | target a =>
      cases y with
      | target b =>
          have hsame := (String.append_right_inj _).mp heq
          exact congrArg target
            (UInt32.toNat_inj.mp (Text.hex_injective 4 hsame))
      | none | int32 | int64 | «local» | token => cases hkind
  | token a =>
      cases y with
      | token b =>
          have hsame := (String.append_right_inj _).mp heq
          exact congrArg token
            (UInt32.toNat_inj.mp (Text.upperHex_injective 8 hsame))
      | none | int32 | int64 | «local» | target => cases hkind

/-- A printed operand is letters and a numeral. -/
theorem mem_display {x : Operand} {c : Char} (hc : c ∈ x.display.toList) :
    c ∈ letters ∨ c = '-' ∨ c ∈ Text.figures := by
  have hmark : ∀ {mark : String},
      (mark.toList.all fun c => c ∈ letters ∨ c ∈ Text.figures) = true →
      c ∈ mark.toList → c ∈ letters ∨ c = '-' ∨ c ∈ Text.figures :=
    fun hall hc =>
      (List.all_iff_forall_prop.mp hall c hc).imp_right .inr
  cases x with
  | none => cases hc
  | int32 v => exact .inr (Text.mem_integer hc)
  | int64 v =>
      rw [display, String.toList_append] at hc
      rcases List.mem_append.mp hc with hc | hc
      · exact .inr (Text.mem_integer hc)
      · exact hmark (by decide) hc
  | «local» i =>
      rw [display, String.toList_append] at hc
      rcases List.mem_append.mp hc with hc | hc
      · exact hmark (by decide) hc
      · exact .inr (.inr (Text.mem_natural hc))
  | target b =>
      rw [display, String.toList_append] at hc
      rcases List.mem_append.mp hc with hc | hc
      · exact hmark (by decide) hc
      · exact .inr (.inr (Text.mem_hex hc))
  | token t =>
      rw [display, String.toList_append] at hc
      rcases List.mem_append.mp hc with hc | hc
      · exact hmark (by decide) hc
      · exact .inr (.inr (Text.mem_upperHex hc))

end Operand

-- ================================================================== heads

/-- What can follow a head. -/
def delimiters : List Char := "(,)".toList

namespace Opcode

/-- A mnemonic can be read. -/
theorem ofMnemonic?_mnemonic (op : Opcode) :
    ofMnemonic? op.mnemonic = some op := by
  cases op <;> rfl

theorem mnemonic_injective : Function.Injective mnemonic := by
  intro op other heq
  have hread := ofMnemonic?_mnemonic op
  rw [heq, ofMnemonic?_mnemonic] at hread
  exact (Option.some.inj hread).symm

/-- A mnemonic is one word. -/
theorem free_of_mem_mnemonic (op : Opcode) :
    ∀ c ∈ op.mnemonic.toList, c ∉ ' ' :: delimiters :=
  List.all_iff_forall_prop.mp (by cases op <;> decide)

end Opcode

namespace Tree

/-- What comes after the mnemonic: nothing, or a blank and the operand. -/
def tail (x : Operand) : List Char :=
  if x = .none then [] else ' ' :: x.display.toList

theorem toList_head (op : Opcode) (x : Operand) :
    (head op x).toList = op.mnemonic.toList ++ tail x := by
  unfold head tail
  split
  · rw [List.append_nil]
  · rw [String.toList_append, String.toList_append, List.append_assoc]
    rfl

theorem stopsAt_tail (x : Operand) : StopsAt [' '] (tail x) := by
  unfold tail
  split
  · nofun
  · exact fun c hc => List.mem_singleton.mpr (Option.some.inj hc).symm

theorem tail_injective : Function.Injective tail := by
  intro x y heq
  unfold tail at heq
  split at heq
  case isTrue hx =>
    split at heq
    case isTrue hy => rw [hx, hy]
    case isFalse => cases heq
  case isFalse =>
    split at heq
    case isTrue => cases heq
    case isFalse =>
      exact Operand.display_injective
        (String.toList_inj.mp (List.cons.inj heq).2)

/-- The head determines the opcode and the operand. -/
theorem head_inj {op other : Opcode} {x y : Operand}
    (heq : head op x = head other y) : op = other ∧ x = y := by
  have hlists := congrArg String.toList heq
  rw [toList_head, toList_head] at hlists
  have hblank : ∀ (op : Opcode), ∀ c ∈ op.mnemonic.toList, c ∉ [' '] :=
    fun op c hc hblank => op.free_of_mem_mnemonic c hc
      (List.mem_cons.mpr (.inl (List.mem_singleton.mp hblank)))
  obtain ⟨hname, htail⟩ := append_inj_of_free (hblank op) (hblank other)
    (stopsAt_tail x) (stopsAt_tail y) hlists
  exact ⟨Opcode.mnemonic_injective (String.toList_inj.mp hname),
    tail_injective htail⟩

/-- There is no delimiter in a head. -/
theorem free_of_mem_head {op : Opcode} {x : Operand} :
    ∀ c ∈ (head op x).toList, c ∉ delimiters := by
  intro c hc
  rw [toList_head] at hc
  rcases List.mem_append.mp hc with hc | hc
  · exact fun hstop => op.free_of_mem_mnemonic c hc (.tail _ hstop)
  unfold tail at hc
  split at hc
  · cases hc
  have hletters : ∀ c ∈ Operand.letters, c ∉ delimiters :=
    List.all_iff_forall_prop.mp (by decide)
  have hfigures : ∀ c ∈ ' ' :: '-' :: Text.figures, c ∉ delimiters :=
    List.all_iff_forall_prop.mp (by decide)
  rcases List.mem_cons.mp hc with rfl | hc
  · exact hfigures _ (.head _)
  · rcases Operand.mem_display hc with hc | hc
    · exact hletters c hc
    · exact hfigures c (.tail _ (List.mem_cons.mpr hc))

-- ================================================================== trees

/-- What may follow a tree. -/
def Follows (t : List Char) : Prop := StopsAt [',', ')'] t

/-- What comes after the head: nothing, or the children in parentheses. -/
def body : List Tree → List Char
  | [] => []
  | child :: rest =>
      '(' :: (child.display.toList ++ ((displayRest rest).toList ++ [')']))

theorem toList_display (op : Opcode) (x : Operand) (children : List Tree) :
    (node op x children).display.toList
      = (head op x).toList ++ body children := by
  cases children with
  | nil => simp [display, body]
  | cons child rest => simp [display, body]

theorem toList_displayRest (child : Tree) (rest : List Tree) :
    (displayRest (child :: rest)).toList
      = ',' :: ' '
        :: (child.display.toList ++ (displayRest rest).toList) := by
  simp [displayRest]

/-- After one of several children comes the next one, or the end. -/
theorem follows_rest (rest : List Tree) (u : List Char) :
    Follows ((displayRest rest).toList ++ ')' :: u) := by
  intro c hc
  cases rest with
  | nil =>
      cases hc
      decide
  | cons child rest =>
      rw [toList_displayRest] at hc
      cases hc
      decide

/-- After a head comes a delimiter or nothing. -/
theorem stopsAt_body {children : List Tree} {u : List Char}
    (hu : Follows u) : StopsAt delimiters (body children ++ u) := by
  intro c hc
  cases children with
  | nil =>
      have hmore : ∀ c ∈ [',', ')'], c ∈ delimiters :=
        List.all_iff_forall_prop.mp (by decide)
      exact hmore c (hu c hc)
  | cons child rest =>
      cases hc
      decide

mutual

/-- Two trees that come to the same text with what follows them are the
same. -/
theorem display_append_inj :
    ∀ (s t : Tree) {u v : List Char}, Follows u → Follows v →
      s.display.toList ++ u = t.display.toList ++ v → s = t ∧ u = v
  | node op x ss, node other y ts, u, v, hu, hv, heq => by
      rw [toList_display, toList_display, List.append_assoc,
        List.append_assoc] at heq
      obtain ⟨hhead, hbody⟩ := append_inj_of_free free_of_mem_head
        free_of_mem_head (stopsAt_body hu) (stopsAt_body hv) heq
      obtain ⟨rfl, rfl⟩ := head_inj (String.toList_inj.mp hhead)
      obtain ⟨rfl, rfl⟩ := body_append_inj ss ts hu hv hbody
      exact ⟨rfl, rfl⟩

/-- So are all their children. -/
theorem body_append_inj :
    ∀ (ss ts : List Tree) {u v : List Char}, Follows u → Follows v →
      body ss ++ u = body ts ++ v → ss = ts ∧ u = v
  | [], [], u, v, _, _, heq => ⟨rfl, heq⟩
  | [], t :: ts, u, v, hu, _, heq => by
      -- no tree is followed by an opening parenthesis
      rw [body, List.nil_append] at heq
      subst heq
      exact absurd (hu '(' rfl) (by decide)
  | s :: ss, [], u, v, _, hv, heq => by
      rw [body, body, List.nil_append] at heq
      subst heq
      exact absurd (hv '(' rfl) (by decide)
  | s :: ss, t :: ts, u, v, _, _, heq => by
      simp only [body, List.cons_append, List.append_assoc] at heq
      obtain ⟨rfl, hrest⟩ := display_append_inj s t (follows_rest ss u)
        (follows_rest ts v) (List.cons.inj heq).2
      obtain ⟨rfl, rfl⟩ := displayRest_append_inj ss ts hrest
      exact ⟨rfl, rfl⟩

/-- Children are as many as there are commas before the end. -/
theorem displayRest_append_inj :
    ∀ (ss ts : List Tree) {u v : List Char},
      (displayRest ss).toList ++ ')' :: u
        = (displayRest ts).toList ++ ')' :: v → ss = ts ∧ u = v
  | [], [], u, v, heq => ⟨rfl, (List.cons.inj heq).2⟩
  | [], t :: ts, u, v, heq => by
      rw [toList_displayRest] at heq
      exact absurd (List.cons.inj heq).1 (by decide)
  | s :: ss, [], u, v, heq => by
      rw [toList_displayRest] at heq
      exact absurd (List.cons.inj heq).1 (by decide)
  | s :: ss, t :: ts, u, v, heq => by
      simp only [toList_displayRest, List.cons_append, List.append_assoc]
        at heq
      obtain ⟨rfl, hrest⟩ := display_append_inj s t (follows_rest ss u)
        (follows_rest ts v) (List.cons.inj (List.cons.inj heq).2).2
      obtain ⟨rfl, rfl⟩ := displayRest_append_inj ss ts hrest
      exact ⟨rfl, rfl⟩

end

/-- The printed form determines the tree. -/
theorem display_injective : Function.Injective display := by
  intro s t heq
  have hnothing : Follows [] := nofun
  refine (display_append_inj s t hnothing hnothing ?_).1
  rw [heq]

end Tree

end InstructionTree
