import ExtensionHeader.Output
import ExtensionHeader.Proofs.Acceptance
import ExtensionHeader.Proofs.Emission
import ExtensionHeader.Proofs.Handles
import ExtensionHeader.Proofs.Collision
import ExtensionHeader.Proofs.Sharing
import ExtensionHeader.Proofs.FileScope
import ExtensionHeader.Proofs.Generation
import ExtensionHeader.Proofs.Statements
import ExtensionHeader.Proofs.Parameters
import ExtensionHeader.Proofs.Locals
import ExtensionHeader.Proofs.Tokens
import ExtensionHeader.Proofs.Reading.Agreement
import ExtensionHeader.Proofs.Reordering
import ExtensionHeader.Proofs.Custody
import ExtensionHeader.Proofs.Linkage
import ExtensionHeader.Proofs.Deletion
import ExtensionHeader.Proofs.Reading.Block
import ExtensionHeader.Proofs.Reading.Value
import ExtensionHeader.Proofs.Rules
import ExtensionHeader.Proofs.ParameterOrder
import ExtensionHeader.Proofs.Grouping
import ExtensionHeader.Proofs.Unions
import ExtensionHeader.Proofs.Cycles
import ExtensionHeader.Proofs.Claimants
import ExtensionHeader.Proofs.FunctionTables
import ExtensionHeader.Proofs.Occurrence
import ExtensionHeader.Proofs.Placement
import ExtensionHeader.Proofs.FirstDeclarations
import ExtensionHeader.Proofs.Reading.Nested
import ExtensionHeader.Proofs.Admission
import ExtensionHeader.Proofs.Spelling
import ExtensionHeader.Proofs.Symbols
import ExtensionHeader.Proofs.Writing
import ExtensionHeader.Proofs.Reading.Float
