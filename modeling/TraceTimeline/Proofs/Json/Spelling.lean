import TraceTimeline.Json.Token
import TraceTimeline.Proofs.Text.Encoding

/-!
# Spelled documents

What a reader meets is neither of the two layouts but a row of tokens with some white space between
them. `Spells tokens bytes` says that, for any white space whatever. Main statement: both layouts
spell the tokens they are made of. So what is shown of readers on spelled tokens holds for either
layout.
-/

namespace TraceTimeline.Json

def Token.bytes (token : Token) : Bytes :=
  token.spelling.flatMap String.utf8EncodeChar

def IsSpaces (bytes : Bytes) : Prop :=
  ∀ b ∈ bytes, isSpace b = true

theorem isSpaces_nil : IsSpaces [] :=
  fun _ hb => absurd hb List.not_mem_nil

/-- What a value may be spelled as, from its first byte on. White space in front of it is no part of
it. -/
abbrev Form := Bytes → Prop

/-- The bytes are the tokens in their order, each behind any amount of white space. -/
inductive Spells : List Token → Bytes → Prop
  | nil : Spells [] []
  | cons {spaces rest : Bytes} {token : Token} {tokens : List Token} :
      IsSpaces spaces → Spells tokens rest →
        Spells (token :: tokens) (spaces ++ (token.bytes ++ rest))

theorem Spells.exists_cons {token : Token} {tokens : List Token} {bytes : Bytes}
    (h : Spells (token :: tokens) bytes) :
    ∃ spaces rest, bytes = spaces ++ (token.bytes ++ rest) ∧ IsSpaces spaces ∧
      Spells tokens rest := by
  cases h with
  | cons hs hrest => exact ⟨_, _, rfl, hs, hrest⟩

theorem isSpaces_gap (style : Style) (depth : Nat) (left right : Token) :
    IsSpaces ((gap style depth left right).flatMap String.utf8EncodeChar) := by
  have hline : ∀ d, IsSpaces ((newLine d).flatMap String.utf8EncodeChar) := by
    intro d
    rw [newLine, List.flatMap_cons, List.flatMap_replicate]
    intro b hb
    rcases List.mem_append.mp hb with hb | hb
    · obtain rfl := List.mem_singleton.mp hb
      decide
    · obtain ⟨piece, hpiece, hb⟩ := List.mem_flatten.mp hb
      obtain rfl := List.eq_of_mem_replicate hpiece
      obtain rfl := List.mem_singleton.mp hb
      decide
  have hone : IsSpaces ([' '].flatMap String.utf8EncodeChar) := by
    intro b hb
    obtain rfl := List.mem_singleton.mp hb
    decide
  unfold gap
  repeat' split
  all_goals first
    | exact isSpaces_nil
    | exact hline _
    | exact hone

theorem spells_foldl_put (style : Style) (tokens : List Token) (page : Page) :
    ∃ bytes, Spells tokens bytes ∧
      Bytes.ofText (tokens.foldl (Page.put style) page).text = Bytes.ofText page.text ++ bytes := by
  -- A page only grows at its end: each token adds its gap and its own spelling.
  induction tokens generalizing page with
  | nil => exact ⟨[], Spells.nil, (List.append_nil _).symm⟩
  | cons token tokens ih =>
      obtain ⟨bytes, hbytes, htext⟩ := ih (page.put style token)
      cases hlast : page.last with
      | none =>
          refine ⟨[] ++ (token.bytes ++ bytes), Spells.cons isSpaces_nil hbytes, ?_⟩
          rw [List.foldl_cons, htext, Page.put, hlast, Bytes.ofText_append,
            Bytes.ofText_ofList, Token.bytes]
          simp
      | some left =>
          refine ⟨_ ++ (token.bytes ++ bytes),
            Spells.cons (isSpaces_gap style page.depth left token) hbytes, ?_⟩
          rw [List.foldl_cons, htext, Page.put, hlast, Bytes.ofText_append,
            Bytes.ofText_ofList, Token.bytes]
          simp

/-- **A rendered document spells its tokens**, whichever layout it has. -/
theorem spells_render (style : Style) (tokens : List Token) :
    Spells tokens (Bytes.ofText (render style tokens)) := by
  obtain ⟨bytes, hbytes, htext⟩ := spells_foldl_put style tokens {}
  have hempty : Bytes.ofText "" = [] := by decide
  rw [render, htext, hempty]
  exact hbytes

end TraceTimeline.Json
