import Kyro.Proof.Api.Streaming
import Kyro.Proof.Blocks.Conservation
import Kyro.Proof.Blocks.Coverage
import Kyro.Proof.Blocks.Duplicates
import Kyro.Proof.Blocks.Independent
import Kyro.Proof.Blocks.Rollback
import Kyro.Proof.Inference.Prompts
import Kyro.Proof.Model.Appends
import Kyro.Proof.Model.Chunking
import Kyro.Proof.Model.DenseAttention
import Kyro.Proof.Model.Keywords
import Kyro.Proof.Model.Modes
import Kyro.Proof.Model.Moe
import Kyro.Proof.Model.Rows
import Kyro.Proof.Model.Sharding
import Kyro.Proof.Model.TokenRows
import Kyro.Proof.Model.Trace
import Kyro.Proof.Quantization.GroupIndex
import Kyro.Proof.Radix.Found
import Kyro.Proof.Radix.Stalls
import Kyro.Proof.Sampler.Chances
import Kyro.Proof.Sampler.Filters
import Kyro.Proof.Sampler.Logits
import Kyro.Proof.Sampler.Penalties
import Kyro.Proof.Scheduler.Selection
import Kyro.Proof.Service.Accounts
import Kyro.Proof.Service.Endings
import Kyro.Proof.Speculative.CacheEntries
import Kyro.Proof.Speculative.Distinct
import Kyro.Proof.Speculative.Finished
import Kyro.Proof.Speculative.Greedy
import Kyro.Proof.Speculative.Ngram
import Kyro.Proof.Worker.Cursor
import Kyro.Proof.Worker.Deposits
import Kyro.Proof.Worker.Fairness
import Kyro.Proof.Worker.Leaks
