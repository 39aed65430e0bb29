import RegionTree.Main
import RegionTree.Proofs.Chunk.Closing
import RegionTree.Proofs.Parse.Arrival
import RegionTree.Proofs.Grammar.Consumption
import RegionTree.Proofs.Parse.ChunkOrder
import RegionTree.Proofs.Parse.OneText
import RegionTree.Proofs.Chunk.Starts
import RegionTree.Proofs.Parse.RangedReuse
import RegionTree.Proofs.Grammar.Includes
import RegionTree.Proofs.Grammar.Compilation
import RegionTree.Proofs.Grammar.Bookkeeping
import RegionTree.Proofs.Grammar.Rounds
import RegionTree.Proofs.Grammar.Cycles
import RegionTree.Proofs.Grammar.Flattening
import RegionTree.Proofs.Binary.Codec
import RegionTree.Proofs.Definition.Binary
import RegionTree.Proofs.Definition.Endings
import RegionTree.Proofs.Grammar.Closure
import RegionTree.Proofs.Grammar.Lookups
import RegionTree.Proofs.Parse.Unfinished
import RegionTree.Proofs.Parse.Checkpoint
import RegionTree.Proofs.Parse.Keeping
import RegionTree.Proofs.Parse.Work
import RegionTree.Proofs.Grammar.Origins
import RegionTree.Proofs.Grammar.Guards
import RegionTree.Proofs.Parse.Replay
import RegionTree.Proofs.Parse.Overflow
import RegionTree.Proofs.Chunk.Shares
import RegionTree.Proofs.Postfix.Decoding
import RegionTree.Proofs.Grammar.Trials
import RegionTree.Proofs.Grammar.Expansion
import RegionTree.Proofs.Pattern.Choices
import RegionTree.Proofs.Pattern.Escaping
import RegionTree.Proofs.Grammar.WordLists
import RegionTree.Proofs.Grammar.Substitution
import RegionTree.Proofs.Grammar.References
import RegionTree.Proofs.Grammar.KeptPrograms
import RegionTree.Proofs.Document.Translation
import RegionTree.Proofs.Document.NormalForm
import RegionTree.Proofs.Chunk.WellNested
import RegionTree.Proofs.Chunk.Searching
import RegionTree.Proofs.Document.Adjacent
import RegionTree.Proofs.Chunk.Rejoining
import RegionTree.Proofs.Tree.Traversal
