import BraceLang.Build.Digest
import BraceLang.Build.Project
import BraceLang.Build.Settings
import BraceLang.Main
import BraceLang.Proofs.Assigning
import BraceLang.Proofs.PythonGrouping
import BraceLang.Proofs.ImportCycles
import BraceLang.Proofs.ImportOrder
import BraceLang.Proofs.WrittenFinals
import BraceLang.Proofs.StrictTyping
import BraceLang.Proofs.BuildOutputs
import BraceLang.Proofs.ScaffoldBindings
import BraceLang.Proofs.FinalClasses
import BraceLang.Proofs.ScopeIsolation
import BraceLang.Proofs.TokenConservation
import BraceLang.Proofs.BracketedPrograms
import BraceLang.Proofs.LexedLines
import BraceLang.Proofs.Spelling
import BraceLang.Proofs.WriterReuse
import BraceLang.Proofs.Ancestors
import BraceLang.Proofs.CallBinding
import BraceLang.Proofs.ConditionalChains
import BraceLang.Proofs.ImportResolution
import BraceLang.Proofs.OverloadDispatch
import BraceLang.Proofs.ScopeChains
import BraceLang.Proofs.GreedyTargets
import BraceLang.Proofs.SwitchChains
import BraceLang.Proofs.LineBreaks
import BraceLang.Proofs.WrittenLiterals
import BraceLang.Proofs.ClassAttributes
import BraceLang.Proofs.CompiledHeaders
import BraceLang.Proofs.TargetIndependence
import BraceLang.Proofs.WalkOrder
